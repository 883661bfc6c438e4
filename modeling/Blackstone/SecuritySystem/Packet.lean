import Blackstone.Library.Buffers
import Blackstone.Library.ByteOrder
import Blackstone.SecuritySystem.Crypto

/-!
# Packets

`core/packet.c`. A header keeps its numbers in the order of the network, and is copied to and from
the bytes at unaligned addresses of a little-endian machine. The byte with index 11 is never
written.

The bytes of a packet are read back as the packet (`packetDeserialize_bytes`), and a change of its
data that is seen by the checksum is refused. The length field is added to 12 in 32 bits:
`packetDeserialize_eq_none_iff` says for which buffers the sum wraps and the data are read from
behind the buffer.
-/

namespace Blackstone.SecuritySystem

open BigEndian Buffers ByteOrder

/-- `packet_header_t`. -/
structure PacketHeader where
  type : UInt8
  length : UInt32
  crc : UInt32
  timestamp : UInt16

/-- `packet_t`. -/
structure Packet where
  header : PacketHeader
  data : Option (List UInt8)
  dataLen : ℕ

/-- `packet_create`, where `alloc` says which calls of `malloc` succeed. -/
def packetCreate (alloc : ℕ → Bool) (type : ℤ) (data : Option (List UInt8)) (len : ℕ)
    (now : UInt64) : Option Packet :=
  if data.isNone ∧ 0 < len then none
  else
    let bytes := (data.getD []).take len
    let header : PacketHeader :=
      ⟨UInt8.ofInt type, swap32 (UInt32.ofNat len), swap32 (crc32 bytes),
        swap16 (now &&& 0xFFFF).toUInt16⟩
    if 0 < len then if alloc len then some ⟨header, some bytes, len⟩ else none
    else some ⟨header, none, len⟩

/-- `packet_free`. -/
def packetFree (packet : Packet) : Packet :=
  if packet.data.isSome then { packet with data := none, dataLen := 0 } else packet

/-- The stores of a header at the start of a buffer, or `none` for one outside of it. -/
def writeHeader (header : PacketHeader) (buffer : List UInt8) : Option (List UInt8) := do
  let buffer ← writeAt buffer 0 [header.type]
  let buffer ← writeAt buffer 1 (store 4 header.length.toNat)
  let buffer ← writeAt buffer 5 (store 4 header.crc.toNat)
  writeAt buffer 9 (store 2 header.timestamp.toNat)

/-- `packet_serialize` on a machine with a `size_t` of `w` bits: the buffer and the value that is
returned, or `none` for an access outside of the buffers. -/
def packetSerialize (w : ℕ) (packet : Packet) (buffer : List UInt8) : Option (List UInt8 × ℤ) :=
  if buffer.length < (12 + packet.dataLen) % 2 ^ w then some (buffer, -1)
  else do
    let buffer ← writeHeader packet.header buffer
    match packet.data with
    | none => return (buffer, 12 + Int.bmod packet.dataLen (2 ^ 32))
    | some data =>
      if 0 < packet.dataLen then do
        let buffer ← writeAt buffer 12 (← readAt data 0 packet.dataLen)
        return (buffer, 12 + Int.bmod packet.dataLen (2 ^ 32))
      else return (buffer, 12 + Int.bmod packet.dataLen (2 ^ 32))

/-- `packet_validate`. -/
def packetValidate (packet : Packet) : Bool :=
  crc32 ((packet.data.getD []).take packet.dataLen) == swap32 packet.header.crc

/-- The header in the first bytes of a buffer. -/
def readHeader (buffer : List UInt8) : Option PacketHeader := do
  let type ← readAt buffer 0 1
  let length ← readAt buffer 1 4
  let crc ← readAt buffer 5 4
  let timestamp ← readAt buffer 9 2
  return ⟨type.getD 0 0, UInt32.ofNat (load length), UInt32.ofNat (load crc),
    UInt16.ofNat (load timestamp)⟩

/-- The end of `packet_deserialize`. -/
def checkPacket (packet : Packet) : Packet × ℤ :=
  if !packetValidate packet then (packetFree packet, -1) else (packet, 0)

/-- `packet_deserialize` of a buffer that is as large as `buffer_size` says: the packet and the
value that is returned, or `none` for a read outside of the buffer. The sum of 12 and the length is
one of 32 bits, whatever the size of `size_t`. -/
def packetDeserialize (alloc : ℕ → Bool) (packet : Packet) (buffer : List UInt8) :
    Option (Packet × ℤ) :=
  if buffer.length < 12 then some (packet, -1)
  else do
    let header ← readHeader buffer
    let packet := { packet with header := header }
    let dataLen := swap32 header.length
    if buffer.length < (12 + dataLen).toNat then some (packet, -1)
    else if 0 < dataLen then
      if !alloc dataLen.toNat then some ({ packet with data := none }, -1)
      else do
        let data ← readAt buffer 12 dataLen.toNat
        return checkPacket { packet with data := some data, dataLen := dataLen.toNat }
    else return checkPacket { packet with data := none, dataLen := 0 }

/-! ## The bytes of a header -/

/-- A header as it is written, with the byte that is not. -/
def PacketHeader.bytes (h : PacketHeader) (gap : UInt8) : List UInt8 :=
  [h.type] ++ store 4 h.length.toNat ++ store 4 h.crc.toNat ++ store 2 h.timestamp.toNat ++ [gap]

@[simp] theorem PacketHeader.length_bytes (h : PacketHeader) (gap : UInt8) :
    (h.bytes gap).length = 12 := by
  simp [PacketHeader.bytes]

theorem readHeader_bytes (h : PacketHeader) (gap : UInt8) (rest : List UInt8) :
    readHeader (h.bytes gap ++ rest) = some h := by
  have htype : readAt (h.bytes gap ++ rest) 0 1 = some [h.type] := by
    have hread := @readAt_append [] [h.type]
      (store 4 h.length.toNat ++ store 4 h.crc.toNat ++ store 2 h.timestamp.toNat ++ [gap] ++ rest)
      0 1 rfl rfl
    simpa only [PacketHeader.bytes, List.append_assoc, List.nil_append] using hread
  have hlength : readAt (h.bytes gap ++ rest) 1 4 = some (store 4 h.length.toNat) := by
    have hread := @readAt_append [h.type] (store 4 h.length.toNat)
      (store 4 h.crc.toNat ++ store 2 h.timestamp.toNat ++ [gap] ++ rest) 1 4 rfl
      (length_store 4 _)
    simpa only [PacketHeader.bytes, List.append_assoc] using hread
  have hcrc : readAt (h.bytes gap ++ rest) 5 4 = some (store 4 h.crc.toNat) := by
    have hread := @readAt_append ([h.type] ++ store 4 h.length.toNat) (store 4 h.crc.toNat)
      (store 2 h.timestamp.toNat ++ [gap] ++ rest) 5 4 (by simp) (length_store 4 _)
    simpa only [PacketHeader.bytes, List.append_assoc] using hread
  have htimestamp : readAt (h.bytes gap ++ rest) 9 2 = some (store 2 h.timestamp.toNat) := by
    have hread := @readAt_append ([h.type] ++ store 4 h.length.toNat ++ store 4 h.crc.toNat)
      (store 2 h.timestamp.toNat) ([gap] ++ rest) 9 2 (by simp) (length_store 2 _)
    simpa only [PacketHeader.bytes, List.append_assoc] using hread
  rw [readHeader, htype, hlength, hcrc, htimestamp]
  simp only [Option.bind_eq_bind, Option.bind_some, Option.pure_def, ofNat_load_store32,
    ofNat_load_store16]
  rfl

/-- Twelve bytes are a header. -/
theorem exists_bytes {buffer : List UInt8} (hlong : 12 ≤ buffer.length) :
    ∃ h gap rest, buffer = PacketHeader.bytes h gap ++ rest := by
  have hpart : ∀ i n, i + n ≤ 12 → ((buffer.drop i).take n).length = n := by
    intro i n hle
    rw [List.length_take, List.length_drop]
    omega
  obtain ⟨type, htype⟩ := List.length_eq_one_iff.mp (hpart 0 1 (by omega))
  obtain ⟨gap, hgap⟩ := List.length_eq_one_iff.mp (hpart 11 1 (by omega))
  have hsplit : buffer = (buffer.drop 0).take 1 ++ (buffer.drop 1).take 4 ++
      (buffer.drop 5).take 4 ++ (buffer.drop 9).take 2 ++ (buffer.drop 11).take 1 ++
      buffer.drop 12 := by
    have htake : ∀ i n, buffer.take i ++ (buffer.drop i).take n = buffer.take (i + n) :=
      fun i n => List.take_add.symm
    rw [List.drop_zero, htake 1 4, htake 5 4, htake 9 2, htake 11 1, List.take_append_drop]
  refine ⟨⟨type, UInt32.ofNat (load ((buffer.drop 1).take 4)),
    UInt32.ofNat (load ((buffer.drop 5).take 4)),
    UInt16.ofNat (load ((buffer.drop 9).take 2))⟩, gap, buffer.drop 12, ?_⟩
  rw [PacketHeader.bytes, store_ofNat_load32 (hpart 1 4 (by omega)),
    store_ofNat_load32 (hpart 5 4 (by omega)), store_ofNat_load16 (hpart 9 2 (by omega)),
    ← htype, ← hgap]
  exact hsplit

/-- Eleven bytes are written, and the next one stays. -/
theorem writeHeader_eq (h : PacketHeader) {buffer : List UInt8} (hlong : 12 ≤ buffer.length) :
    ∃ gap, writeHeader h buffer = some (h.bytes gap ++ buffer.drop 12) := by
  obtain ⟨gap, hgap⟩ : ∃ gap, buffer.drop 11 = [gap] ++ buffer.drop 12 :=
    ⟨buffer[11], List.drop_eq_getElem_cons (by omega)⟩
  let type := [h.type]
  let length := store 4 h.length.toNat
  let crc := store 4 h.crc.toNat
  let timestamp := store 2 h.timestamp.toNat
  have hstored : ∀ k n, (store k n).length = k := length_store
  have htype : writeAt buffer 0 type = some (type ++ buffer.drop 1) :=
    writeAt_zero (Nat.le_trans (show 1 ≤ 12 by decide) hlong)
  have hlength : writeAt (type ++ buffer.drop 1) 1 length =
      some (type ++ length ++ buffer.drop 5) := by
    have hwrite := @writeAt_append type buffer length 1 rfl (by simp [length]; omega)
    rwa [hstored] at hwrite
  have hcrc : writeAt (type ++ length ++ buffer.drop 5) 5 crc =
      some (type ++ length ++ crc ++ buffer.drop 9) := by
    have hwrite := @writeAt_append (type ++ length) buffer crc 5 (by simp [type, length])
      (by simp [crc]; omega)
    rwa [hstored] at hwrite
  have htimestamp : writeAt (type ++ length ++ crc ++ buffer.drop 9) 9 timestamp =
      some (h.bytes gap ++ buffer.drop 12) := by
    have hwrite := @writeAt_append (type ++ length ++ crc) buffer timestamp 9
      (by simp [type, length, crc]) (by simp [timestamp]; omega)
    rw [hstored, hgap, ← List.append_assoc] at hwrite
    exact hwrite
  refine ⟨gap, ?_⟩
  rw [writeHeader, htype, Option.bind_eq_bind, Option.bind_some, hlength, Option.bind_some, hcrc,
    Option.bind_some, htimestamp]

theorem packetSerialize_eq (w : ℕ) {packet : Packet} {buffer : List UInt8}
    (hroom : 12 + packet.dataLen ≤ buffer.length) (hlen : packet.dataLen < 2 ^ 31)
    (hdata : (packet.data.getD []).length = packet.dataLen) :
    ∃ gap, packetSerialize w packet buffer =
      some (packet.header.bytes gap ++ packet.data.getD [] ++ buffer.drop (12 + packet.dataLen),
        12 + (packet.dataLen : ℤ)) := by
  have hfit : ¬buffer.length < (12 + packet.dataLen) % 2 ^ w :=
    Nat.not_lt.mpr (Nat.le_trans (Nat.mod_le _ _) hroom)
  have hint := bmod_of_lt hlen
  obtain ⟨gap, hheader⟩ := writeHeader_eq packet.header (Nat.le_of_add_right_le hroom)
  have hwritten : writeAt (packet.header.bytes gap ++ buffer.drop 12) 12
      (packet.data.getD []) = some (packet.header.bytes gap ++ packet.data.getD [] ++
        buffer.drop (12 + packet.dataLen)) := by
    rw [← hdata]
    exact writeAt_append (PacketHeader.length_bytes _ _) (by omega)
  refine ⟨gap, ?_⟩
  rw [packetSerialize, if_neg hfit, hheader, Option.bind_eq_bind, Option.bind_some, hint]
  cases hpacket : packet.data with
  | none =>
    rw [hpacket] at hdata
    have hempty : packet.dataLen = 0 := hdata.symm
    rw [hempty, Option.getD_none, List.append_nil]
    rfl
  | some data =>
    rw [hpacket, Option.getD_some] at hdata hwritten
    have hread : readAt data 0 packet.dataLen = some data := by
      rw [readAt, if_pos (by omega), List.drop_zero, List.take_of_length_le hdata.le]
    dsimp only
    split_ifs with hpos
    · rw [hread, Option.bind_some, hwritten, Option.bind_some]
      rfl
    · have hempty : packet.dataLen = 0 := Nat.eq_zero_of_not_pos hpos
      rw [hempty] at hdata
      rw [hempty, List.length_eq_zero_iff.mp hdata, Option.getD_some, List.append_nil]
      rfl

/-! ## Reading a packet -/

theorem checkPacket_of_eq {packet : Packet} (hcrc : swap32 packet.header.crc =
    crc32 ((packet.data.getD []).take packet.dataLen)) : checkPacket packet = (packet, 0) := by
  have hvalid : packetValidate packet = true := by
    rw [packetValidate, hcrc, beq_self_eq_true]
  rw [checkPacket, hvalid]
  rfl

theorem checkPacket_of_ne {packet : Packet} (hcrc : swap32 packet.header.crc ≠
    crc32 ((packet.data.getD []).take packet.dataLen)) :
    ∃ freed, checkPacket packet = (freed, -1) ∧ freed.data = none := by
  have hinvalid : packetValidate packet = false := beq_eq_false_iff_ne.mpr hcrc.symm
  refine ⟨packetFree packet, ?_, ?_⟩
  · rw [checkPacket, hinvalid]
    rfl
  · rw [packetFree]
    cases hdata : packet.data with
    | none => exact hdata
    | some data => rfl

/-- The data that a packet is given, and none for no bytes. -/
theorem readData_eq (data : List UInt8) :
    ((if data = [] then none else some data).getD []).take data.length = data := by
  split_ifs with hempty
  · rw [hempty]
    rfl
  · exact List.take_of_length_le (Nat.le_refl _)

/-- The length field of a buffer. -/
def lengthField (buffer : List UInt8) : ℕ := ofBigEndian ((buffer.drop 1).take 4)

section Read

variable {alloc : ℕ → Bool} {old : Packet} {h : PacketHeader} {gap : UInt8} {rest : List UInt8}

theorem packetDeserialize_bytes_append :
    packetDeserialize alloc old (h.bytes gap ++ rest) =
      if 12 + rest.length < (12 + swap32 h.length).toNat then some ({ old with header := h }, -1)
      else if (swap32 h.length).toNat = 0 then some (checkPacket ⟨h, none, 0⟩)
      else if alloc (swap32 h.length).toNat = false then some (⟨h, none, old.dataLen⟩, -1)
      else if rest.length < (swap32 h.length).toNat then none
      else some (checkPacket
        ⟨h, some (rest.take (swap32 h.length).toNat), (swap32 h.length).toNat⟩) := by
  have hlength : (h.bytes gap ++ rest).length = 12 + rest.length := by
    rw [List.length_append, PacketHeader.length_bytes]
  have hread : readAt (h.bytes gap ++ rest) 12 (swap32 h.length).toNat =
      if rest.length < (swap32 h.length).toNat then none
      else some (rest.take (swap32 h.length).toNat) := by
    rw [readAt, hlength, List.drop_left' (PacketHeader.length_bytes h gap)]
    split_ifs
    · omega
    · rfl
    · rfl
    · omega
  have hpos : 0 < swap32 h.length ↔ ¬(swap32 h.length).toNat = 0 := by
    rw [UInt32.lt_iff_toNat_lt]
    exact Nat.pos_iff_ne_zero
  rw [packetDeserialize, hlength, if_neg (by omega), readHeader_bytes, Option.bind_eq_bind,
    Option.bind_some]
  dsimp only
  by_cases hshort : 12 + rest.length < (12 + swap32 h.length).toNat
  · rw [if_pos hshort, if_pos hshort]
  · rw [if_neg hshort, if_neg hshort]
    by_cases hzero : (swap32 h.length).toNat = 0
    · rw [if_neg (mt hpos.mp (not_not.mpr hzero)), if_pos hzero]
      rfl
    · rw [if_pos (hpos.mpr hzero), if_neg hzero, hread]
      cases alloc (swap32 h.length).toNat with
      | false => rfl
      | true =>
        rw [Bool.not_true, if_neg Bool.false_ne_true,
          if_neg (show ¬(true = false) by decide)]
        split_ifs
        · rfl
        · rfl

/-- A buffer with all the data that the length field promises. -/
theorem packetDeserialize_complete {data : List UInt8}
    (hlength : (swap32 h.length).toNat = data.length) (halloc : alloc data.length = true) :
    packetDeserialize alloc old (h.bytes gap ++ (data ++ rest)) =
      some (checkPacket ⟨h, if data = [] then none else some data, data.length⟩) := by
  have h12 : (12 : UInt32).toNat = 12 := rfl
  have hfit : ¬12 + (data ++ rest).length < (12 + swap32 h.length).toNat := by
    rw [UInt32.toNat_add, h12, hlength, List.length_append]
    omega
  have hall : ¬(data ++ rest).length < data.length := by
    rw [List.length_append]
    omega
  rw [packetDeserialize_bytes_append, if_neg hfit, hlength, halloc,
    if_neg (show ¬(true = false) by decide), if_neg hall, List.take_left]
  by_cases hempty : data = []
  · rw [hempty]
    rfl
  · rw [if_neg (mt List.length_eq_zero_iff.mp hempty), if_neg hempty]

/-- The bytes of a packet are read as it, when its checksum is right. -/
theorem packetDeserialize_bytes {data : List UInt8}
    (hlength : (swap32 h.length).toNat = data.length) (halloc : alloc data.length = true)
    (hcrc : swap32 h.crc = crc32 data) :
    packetDeserialize alloc old (h.bytes gap ++ (data ++ rest)) =
      some (⟨h, if data = [] then none else some data, data.length⟩, 0) := by
  rw [packetDeserialize_complete hlength halloc, checkPacket_of_eq]
  rw [hcrc]
  exact congrArg crc32 (readData_eq data).symm

/-- A packet whose checksum is wrong is refused, and its data are freed. -/
theorem packetDeserialize_refused {data : List UInt8}
    (hlength : (swap32 h.length).toNat = data.length) (halloc : alloc data.length = true)
    (hcrc : swap32 h.crc ≠ crc32 data) :
    ∃ packet, packetDeserialize alloc old (h.bytes gap ++ (data ++ rest)) = some (packet, -1) ∧
      packet.data = none := by
  have hrefused : swap32 h.crc ≠
      crc32 (((if data = [] then none else some data).getD []).take data.length) := by
    rwa [readData_eq]
  obtain ⟨packet, hpacket, hfreed⟩ := @checkPacket_of_ne
    ⟨h, if data = [] then none else some data, data.length⟩ hrefused
  refine ⟨packet, ?_, hfreed⟩
  rw [packetDeserialize_complete hlength halloc, hpacket]

end Read

/-! ## The laws -/

/-- The two words of a header that say what follows it. -/
theorem words_bytes (h : PacketHeader) (gap : UInt8) (rest : List UInt8) :
    ((h.bytes gap ++ rest).drop 1).take 4 = store 4 h.length.toNat ∧
      ((h.bytes gap ++ rest).drop 5).take 4 = store 4 h.crc.toNat := by
  have hsplit : h.bytes gap ++ rest = [h.type] ++ (store 4 h.length.toNat ++
      (store 4 h.crc.toNat ++ (store 2 h.timestamp.toNat ++ ([gap] ++ rest)))) := by
    simp only [PacketHeader.bytes, List.append_assoc]
  constructor
  · rw [hsplit]
    exact List.take_left' (length_store 4 _)
  · have hfront : ([h.type] ++ store 4 h.length.toNat).length = 5 := by simp
    rw [hsplit, ← List.append_assoc, List.drop_left' hfront, List.take_left' (length_store 4 _)]

theorem lengthField_bytes (h : PacketHeader) (gap : UInt8) (rest : List UInt8) :
    lengthField (h.bytes gap ++ rest) = (swap32 h.length).toNat := by
  have hnat := toNat_swap32_load (length_store 4 h.length.toNat)
  rw [ofNat_load_store32] at hnat
  rw [lengthField, (words_bytes h gap rest).1, hnat]

/-- Where the parser reads bytes behind its buffer. -/
theorem packetDeserialize_eq_none_iff (alloc : ℕ → Bool) (old : Packet) (buffer : List UInt8) :
    packetDeserialize alloc old buffer = none ↔
      12 ≤ buffer.length ∧ 2 ^ 32 - 12 ≤ lengthField buffer ∧
        buffer.length < 12 + lengthField buffer ∧ alloc (lengthField buffer) = true := by
  rcases Nat.lt_or_ge buffer.length 12 with hshort | hlong
  · rw [packetDeserialize, if_pos hshort]
    exact iff_of_false (Option.some_ne_none _) fun hread => absurd hread.1 (Nat.not_le.mpr hshort)
  · obtain ⟨h, gap, rest, rfl⟩ := exists_bytes hlong
    have h12 : (12 : UInt32).toNat = 12 := rfl
    have hlt := (swap32 h.length).toNat_lt
    rw [packetDeserialize_bytes_append, lengthField_bytes, List.length_append,
      PacketHeader.length_bytes, UInt32.toNat_add, h12]
    split_ifs with hshort hempty hfailed hover
    · refine iff_of_false id ?_
      rintro ⟨-, hlarge, -, -⟩
      omega
    · refine iff_of_false id ?_
      rintro ⟨-, hlarge, -, -⟩
      omega
    · refine iff_of_false id ?_
      rintro ⟨-, -, -, halloc⟩
      rw [hfailed] at halloc
      cases halloc
    · have halloc : alloc (swap32 h.length).toNat = true := by simpa using hfailed
      refine iff_of_true rfl ⟨?_, ?_, ?_, halloc⟩
      · omega
      · omega
      · omega
    · refine iff_of_false id ?_
      rintro ⟨-, -, hover', -⟩
      omega

/-- What `packet_create` makes. -/
theorem packetCreate_eq (type : ℤ) (source : Option (List UInt8)) (now : UInt64) :
    packetCreate (fun _ => true) type source (source.getD []).length now =
      some ⟨⟨UInt8.ofInt type, swap32 (UInt32.ofNat (source.getD []).length),
        swap32 (crc32 (source.getD [])), swap16 (now &&& 0xFFFF).toUInt16⟩,
        if source.getD [] = [] then none else some (source.getD []),
        (source.getD []).length⟩ := by
  have hsource : ¬(source.isNone ∧ 0 < (source.getD []).length) := by
    cases source with
    | none => exact fun h => absurd h.2 (Nat.lt_irrefl 0)
    | some data => exact fun h => Bool.noConfusion h.1
  rw [packetCreate, if_neg hsource, List.take_of_length_le (Nat.le_refl _)]
  dsimp only
  by_cases hempty : source.getD [] = []
  · rw [hempty]
    rfl
  · rw [if_pos (List.length_pos_iff.mpr hempty), if_neg hempty]
    rfl

/-- The bytes of a packet with another checksum and other data. -/
theorem bytes_changed (h : PacketHeader) (gap : UInt8) (data : List UInt8) {crc : List UInt8}
    (hcrc : crc.length = 4) :
    (h.bytes gap ++ data).take 5 ++ crc ++ ((h.bytes gap ++ data).take 12).drop 9 =
      PacketHeader.bytes { h with crc := UInt32.ofNat (load crc) } gap := by
  have hfront : (h.bytes gap ++ data).take 5 = [h.type] ++ store 4 h.length.toNat := by
    rw [PacketHeader.bytes, List.append_assoc, List.append_assoc, List.append_assoc]
    exact List.take_left' (by simp)
  have hback : ((h.bytes gap ++ data).take 12).drop 9 = store 2 h.timestamp.toNat ++ [gap] := by
    rw [List.take_left' (PacketHeader.length_bytes h gap), PacketHeader.bytes, List.append_assoc]
    exact List.drop_left' (by simp)
  rw [hfront, hback, PacketHeader.bytes, store_ofNat_load32 hcrc, List.append_assoc,
    ← List.append_assoc _ _ [gap], ← List.append_assoc, ← List.append_assoc]

/-- A packet goes through its bytes unchanged, and is refused after a change of the data or the
checksum that does not keep them together. -/
theorem packet_codec (w : ℕ) (type : ℤ) (source : Option (List UInt8)) (now : UInt64)
    (buffer : List UInt8) (old : Packet)
    (hlen : (source.getD []).length < 2 ^ 31 - 12)
    (hroom : 12 + (source.getD []).length ≤ buffer.length) :
    let alloc := fun _ => true
    let data := source.getD []
    ∃ packet written,
      packetCreate alloc type source data.length now = some packet ∧
      packetSerialize w packet buffer = some (written, 12 + (data.length : ℤ)) ∧
      written.length = buffer.length ∧
      packet.header = ⟨UInt8.ofInt type, swap32 (UInt32.ofNat data.length), swap32 (crc32 data),
        swap16 (now &&& 0xFFFF).toUInt16⟩ ∧
      packet.data.getD [] = data ∧ packet.dataLen = data.length ∧
      (∀ size, 12 + data.length ≤ size →
        packetDeserialize alloc old (written.take size) = some (packet, 0)) ∧
      ∀ crc changed : List UInt8, crc.length = 4 → changed.length = data.length →
        ofBigEndian crc ≠ (crc32 changed).toNat → ∀ rest, ∃ refused,
          packetDeserialize alloc old
            (written.take 5 ++ crc ++ (written.take 12).drop 9 ++ changed ++ rest) =
              some (refused, -1) ∧
            refused.data = none := by
  intro alloc data
  have hshort : data.length < 2 ^ 31 := Nat.lt_of_lt_of_le hlen (Nat.sub_le _ _)
  have hroom : 12 + data.length ≤ buffer.length := hroom
  have hdata : ((if data = [] then none else some data : Option (List UInt8)).getD []) = data := by
    split_ifs with hempty
    · exact hempty.symm
    · rfl
  let header : PacketHeader := ⟨UInt8.ofInt type, swap32 (UInt32.ofNat data.length),
    swap32 (crc32 data), swap16 (now &&& 0xFFFF).toUInt16⟩
  have hcreate : packetCreate alloc type source data.length now =
      some ⟨header, if data = [] then none else some data, data.length⟩ :=
    packetCreate_eq type source now
  have hfield : (swap32 header.length).toNat = data.length := by
    rw [swap32_swap32]
    exact UInt32.toNat_ofNat_of_lt' (Nat.lt_trans hshort (by decide))
  have hchecksum : swap32 header.crc = crc32 data := swap32_swap32 _
  obtain ⟨gap, hwrite⟩ := @packetSerialize_eq w
    ⟨header, if data = [] then none else some data, data.length⟩ buffer hroom hshort
    (congrArg List.length hdata)
  rw [hdata] at hwrite
  dsimp only at hwrite
  refine ⟨_, _, hcreate, hwrite, ?_, rfl, hdata, rfl, ?_, ?_⟩
  · rw [List.length_append, List.length_append, PacketHeader.length_bytes, List.length_drop]
    omega
  · intro size hsize
    have hall : (header.bytes gap ++ data).length ≤ size := by
      rw [List.length_append, PacketHeader.length_bytes]
      exact hsize
    rw [List.take_append, List.take_of_length_le hall, List.append_assoc]
    exact packetDeserialize_bytes hfield rfl hchecksum
  · intro crc changed hcrc hchanged hmismatch rest
    clear_value header
    rw [List.append_assoc _ data, bytes_changed header gap _ hcrc, List.append_assoc]
    refine packetDeserialize_refused (h := { header with crc := UInt32.ofNat (load crc) })
      (hfield.trans hchanged.symm) rfl ?_
    intro hsame
    rw [← hsame, toNat_swap32_load hcrc] at hmismatch
    exact hmismatch rfl

/-- A packet of two bytes in a buffer of twenty. -/
theorem packet_codec_two : ∃ packet written,
    packetCreate (fun _ => true) 2 (some [7, 8]) 2 1000 = some packet ∧
      packetSerialize 64 packet (List.replicate 20 0xCC) = some (written, 14) ∧
      packetDeserialize (fun _ => true) ⟨⟨0, 0, 0, 0⟩, none, 0⟩ (written.take 14) =
        some (packet, 0) := by
  obtain ⟨packet, written, hcreate, hwrite, -, -, -, -, hread, -⟩ :=
    packet_codec 64 2 (some [7, 8]) 1000 (List.replicate 20 0xCC) ⟨⟨0, 0, 0, 0⟩, none, 0⟩
      (by decide) (by decide)
  exact ⟨packet, written, hcreate, hwrite, hread 14 (by decide)⟩

/-- The parser stays within its buffer unless the sum of 12 and the length field wraps. -/
theorem packetDeserialize_inBounds_iff (alloc : ℕ → Bool) (old : Packet) (buffer : List UInt8) :
    packetDeserialize alloc old buffer ≠ none ↔
      buffer.length < 12 ∨ lengthField buffer < 2 ^ 32 - 12 ∨
        12 + lengthField buffer ≤ buffer.length ∨ alloc (lengthField buffer) = false := by
  rw [Ne, packetDeserialize_eq_none_iff, not_and_or, not_and_or, not_and_or, Nat.not_le,
    Nat.not_le, Nat.not_lt, Bool.not_eq_true]

/-- A header alone, with the length `0xFFFFFFF4`. -/
theorem packetDeserialize_out_of_bounds :
    packetDeserialize (fun _ => true) ⟨⟨0, 0, 0, 0⟩, none, 0⟩
      [2, 0xFF, 0xFF, 0xFF, 0xF4, 0, 0, 0, 0, 0, 0, 0] = none := by
  decide +kernel

/-- A change of the data within four consecutive bytes is seen. -/
theorem packetValidate_burst {alloc : ℕ → Bool} {type : ℤ} {now : UInt64} {packet : Packet}
    {front xs ys back : List UInt8}
    (hcreate : packetCreate alloc type (some (front ++ xs ++ back)) (front ++ xs ++ back).length
      now = some packet)
    (hlength : xs.length = ys.length) (hburst : xs.length ≤ 4) (hne : xs ≠ ys) :
    packetValidate { packet with data := some (front ++ ys ++ back) } = false := by
  have hpos : 0 < (front ++ xs ++ back).length := by
    by_contra hempty
    rw [List.length_append, List.length_append] at hempty
    have hxs : xs = [] := List.length_eq_zero_iff.mp (by omega)
    have hys : ys = [] := List.length_eq_zero_iff.mp (by omega)
    exact hne (hxs.trans hys.symm)
  have hsize : (front ++ ys ++ back).length = (front ++ xs ++ back).length := by
    simp [hlength]
  rw [packetCreate, if_neg (by simp), if_pos hpos] at hcreate
  split_ifs at hcreate
  obtain rfl := Option.some.inj hcreate
  rw [packetValidate, beq_eq_false_iff_ne, Option.getD_some, Option.getD_some, ← hsize,
    List.take_length, hsize, List.take_length, swap32_swap32, crc32_eq, crc32_eq,
    BankCrypto.crc32_eq, BankCrypto.crc32_eq]
  intro hsame
  exact Crc.register_burst_ne Crc.two_pow_le_generator _ front back hlength hburst hne
    (UInt32.xor_left_inj _ |>.mp hsame).symm

/-- Four bytes changed behind the first one. -/
theorem packetValidate_burst_four : ∃ packet,
    packetCreate (fun _ => true) 2 (some [1, 2, 3, 4, 5, 6]) 6 1000 = some packet ∧
      packetValidate { packet with data := some [1, 0x82, 3, 4, 0x85, 6] } = false := by
  have hcreate := packetCreate_eq 2 (some [1, 2, 3, 4, 5, 6]) 1000
  exact ⟨_, hcreate, @packetValidate_burst _ 2 1000 _ [1] [2, 3, 4, 5] [0x82, 3, 4, 0x85] [6]
    hcreate rfl (by decide) (by decide)⟩

end Blackstone.SecuritySystem
