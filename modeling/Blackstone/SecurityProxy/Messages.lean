import Blackstone.Bank.Text
import Blackstone.Library.ModifiedUtf8
import Blackstone.Library.Repetition

/-!
# The messages of the proxy

`P2PMessage`, the classification of packets and `handleP2PPacket`. A message alone reads back with
all fields but its id, for which the reader takes the time (`fromBytes_toBytes`). The handler reads
a packet together with the four letters that `identifyPacket` looks at, so that `P2` is the length
of the source. It gets the message that was sent only when that is nothing but these letters again
and again (`understood_iff`).
-/

namespace Blackstone.SecurityProxy

open Bank (ascii)
open BigEndian ModifiedUtf8 Repetition

/-! ## Packets -/

/-- `PacketType`. -/
inductive PacketType
  | handshake | data | control | p2p | heartbeat | unknown
  deriving DecidableEq

/-- `identifyPacket`. -/
def identifyPacket (data : List UInt8) : PacketType :=
  if data.length < 4 then .unknown
  else
    let magic := data.take 4
    if magic = ascii "P2PH" then .handshake
    else if magic = ascii "P2PD" then .data
    else if magic = ascii "P2PC" then .control
    else if magic = ascii "P2PP" then .p2p
    else if magic = ascii "P2HB" then .heartbeat
    else .unknown

/-- A byte array, whose length is an `int`. -/
abbrev Payload := {bytes : List UInt8 // bytes.length < 2 ^ 31}

/-- `P2PMessage`. The characters of its texts are 16-bit units. -/
structure P2PMessage where
  source : List UInt16
  destination : List UInt16
  payload : Payload
  type : List UInt16
  messageId : UInt64

namespace P2PMessage

/-- `toBytes`. -/
def toBytes (m : P2PMessage) : Option (List UInt8) := do
  let source ← writeUTF m.source
  let destination ← writeUTF m.destination
  let type ← writeUTF m.type
  some (source ++ (destination ++ (bigEndian 4 m.payload.1.length ++ (m.payload.1 ++
    (type ++ bigEndian 8 m.messageId.toNat)))))

/-- `readInt`, a new array of that length, and `readFully`. -/
def readPayload (data : List UInt8) : Option (Payload × List UInt8) := do
  let (payloadLen, data) ← readNumber 4 data
  let (payload, data) ← readFully payloadLen data
  if h : payload.length < 2 ^ 31 then some (⟨payload, h⟩, data) else none

/-- `fromBytes`, when the clock shows `nanoTime`. The id is read and thrown away, and the
constructor takes the time. -/
def fromBytes (data : List UInt8) (nanoTime : UInt64) : Option P2PMessage := do
  let (source, data) ← readUTF data
  let (destination, data) ← readUTF data
  let (payload, data) ← readPayload data
  let (type, data) ← readUTF data
  let _ ← readNumber 8 data
  some ⟨source, destination, payload, type, nanoTime⟩

/-- The same source, destination, payload and type. -/
def Same (m n : P2PMessage) : Prop :=
  n.source = m.source ∧ n.destination = m.destination ∧ n.payload = m.payload ∧ n.type = m.type

end P2PMessage

/-- What `handleP2PPacket` reads of a `ProxySession`. -/
structure PeerSession where
  clientIp : List UInt16
  anonymizedIp : Option (List UInt16)

/-- `filter` and `findFirst`. The outer `none` is the exception at a session without an anonymized
address. -/
def findTarget (destination : List UInt16) : List PeerSession → Option (Option PeerSession)
  | [] => some none
  | s :: sessions =>
    if s.clientIp = destination then some (some s)
    else
      match s.anonymizedIp with
      | none => none
      | some anonymizedIp =>
        if anonymizedIp = destination then some (some s) else findTarget destination sessions

/-- What `handleP2PPacket` does with a packet. -/
inductive Handling
  | unreadable
  | processed (message : P2PMessage)
  | undelivered (message : P2PMessage)
  | forwarded (message : P2PMessage) (target : PeerSession)
  | queued (message : P2PMessage)

/-- `handleP2PPacket`. -/
def handleP2PPacket (session : PeerSession) (activeSessions : List PeerSession)
    (data : List UInt8) (nanoTime : UInt64) : Handling :=
  match P2PMessage.fromBytes data nanoTime with
  | none => .unreadable
  | some message =>
    if message.destination = session.clientIp then .processed message
    else
      match findTarget message.destination activeSessions with
      | none => .undelivered message
      | some (some target) => .forwarded message target
      | some none => .queued message

/-- The message that was decoded. -/
def Handling.message : Handling → Option P2PMessage
  | .unreadable => none
  | .processed message => some message
  | .undelivered message => some message
  | .forwarded message _ => some message
  | .queued message => some message

theorem handleP2PPacket_message (session : PeerSession) (activeSessions : List PeerSession)
    (data : List UInt8) (nanoTime : UInt64) :
    (handleP2PPacket session activeSessions data nanoTime).message =
      P2PMessage.fromBytes data nanoTime := by
  unfold handleP2PPacket
  cases P2PMessage.fromBytes data nanoTime with
  | none => rfl
  | some message =>
    dsimp only
    split_ifs
    · rfl
    · cases findTarget message.destination activeSessions with
      | none => rfl
      | some target => cases target <;> rfl

/-- The letters in front of a packet between peers. -/
def magic : List UInt8 := ascii "P2PP"

theorem magic_ne_nil : magic ≠ [] := by decide

theorem identifyPacket_magic (data : List UInt8) : identifyPacket (magic ++ data) = .p2p := by
  have hlength : magic.length = 4 := rfl
  have htake : (magic ++ data).take 4 = magic := List.take_left' hlength
  unfold identifyPacket
  rw [if_neg (by rw [List.length_append]; omega), htake]
  rfl

/-! ## What is read back -/

namespace P2PMessage

theorem toBytes_eq_some_iff {m : P2PMessage} {bytes : List UInt8} :
    m.toBytes = some bytes ↔
      ((encode m.source).length ≤ 65535 ∧ (encode m.destination).length ≤ 65535 ∧
        (encode m.type).length ≤ 65535) ∧
      bytes = bigEndian 2 (encode m.source).length ++ encode m.source ++
        (bigEndian 2 (encode m.destination).length ++ encode m.destination ++
          (bigEndian 4 m.payload.1.length ++ (m.payload.1 ++
            (bigEndian 2 (encode m.type).length ++ encode m.type ++
              bigEndian 8 m.messageId.toNat)))) := by
  simp only [toBytes, Option.bind_eq_bind, Option.bind_eq_some_iff, writeUTF_eq_some_iff,
    Option.some.injEq]
  constructor
  · rintro ⟨_, ⟨hsource, rfl⟩, _, ⟨hdestination, rfl⟩, _, ⟨htype, rfl⟩, rfl⟩
    exact ⟨⟨hsource, hdestination, htype⟩, rfl⟩
  · rintro ⟨⟨hsource, hdestination, htype⟩, rfl⟩
    exact ⟨_, ⟨hsource, rfl⟩, _, ⟨hdestination, rfl⟩, _, ⟨htype, rfl⟩, rfl⟩

theorem fromBytes_eq_some_iff {data : List UInt8} {nanoTime : UInt64} {n : P2PMessage} :
    fromBytes data nanoTime = some n ↔
      ∃ d₁ d₂ d₃ d₄, readUTF data = some (n.source, d₁) ∧ readUTF d₁ = some (n.destination, d₂) ∧
        readPayload d₂ = some (n.payload, d₃) ∧ readUTF d₃ = some (n.type, d₄) ∧
        8 ≤ d₄.length ∧ n.messageId = nanoTime := by
  simp only [fromBytes, Option.bind_eq_bind, Option.bind_eq_some_iff, Prod.exists,
    readNumber_eq_some_iff, Option.some.injEq]
  constructor
  · rintro ⟨source, d₁, hsource, destination, d₂, hdestination, payload, d₃, hpayload, type, d₄,
      htype, _, _, ⟨hid, -⟩, rfl⟩
    exact ⟨d₁, d₂, d₃, d₄, hsource, hdestination, hpayload, htype, hid, rfl⟩
  · rintro ⟨d₁, d₂, d₃, d₄, hsource, hdestination, hpayload, htype, hid, rfl⟩
    exact ⟨_, d₁, hsource, _, d₂, hdestination, _, d₃, hpayload, _, d₄, htype, _, _,
      ⟨hid, rfl, rfl⟩, rfl⟩

theorem readPayload_append (payload : Payload) (rest : List UInt8) :
    readPayload (bigEndian 4 payload.1.length ++ (payload.1 ++ rest)) = some (payload, rest) := by
  have hlt : payload.1.length < 2 ^ 31 := payload.2
  rw [readPayload, readNumber_append (by omega), Option.bind_eq_bind, Option.bind_some]
  dsimp only
  rw [readFully_append, Option.bind_eq_bind, Option.bind_some]
  exact dif_pos payload.2

/-- A message alone is read back, but for its id. -/
theorem fromBytes_toBytes {m : P2PMessage} {bytes : List UInt8} (h : m.toBytes = some bytes)
    (nanoTime : UInt64) : fromBytes bytes nanoTime = some { m with messageId := nanoTime } := by
  obtain ⟨⟨hsource, hdestination, htype⟩, rfl⟩ := toBytes_eq_some_iff.mp h
  refine fromBytes_eq_some_iff.mpr ⟨_, _, _, _, readUTF_append hsource _,
    readUTF_append hdestination _, readPayload_append m.payload _, readUTF_append htype _, ?_, rfl⟩
  rw [length_bigEndian]

end P2PMessage

/-! ## What the letters do -/

/-- The text whose bytes are the letters again and again, from the third letter on. Its length is
the number that the first two letters write. -/
def selfText : List UInt16 := repeated [0x50, 0x50, 0x50, 0x32] 0x5032

/-- The letters again and again, as often as the number that they write. -/
def selfPayload : List UInt8 := repeated magic 0x50325050

/-- The first two letters are read as a length. -/
theorem readUTF_magic {data rest : List UInt8} {s : List UInt16} :
    readUTF (magic ++ data) = some (s, rest) ↔
      0x5032 ≤ data.length + 2 ∧ decode ((0x50 :: 0x50 :: data).take 0x5032) = some s ∧
        (0x50 :: 0x50 :: data).drop 0x5032 = rest := by
  have hmagic : magic ++ data = bigEndian 2 0x5032 ++ (0x50 :: 0x50 :: data) := rfl
  rw [readUTF, hmagic, readNumber_append (by omega), Option.bind_eq_bind, Option.bind_some]
  simp only [Option.bind_eq_bind, Option.bind_eq_some_iff, Prod.exists, readFully_eq_some_iff,
    Option.some.injEq, Prod.mk.injEq, List.length_cons]
  constructor
  · rintro ⟨_, _, ⟨hlength, rfl, rfl⟩, _, hdecode, rfl, rfl⟩
    exact ⟨hlength, hdecode, rfl⟩
  · rintro ⟨hlength, hdecode, rfl⟩
    exact ⟨_, _, ⟨hlength, rfl, rfl⟩, s, hdecode, rfl, rfl⟩

theorem bigEndian_two (n : ℕ) : bigEndian 2 n = [UInt8.ofNat (n / 256), UInt8.ofNat n] := by
  rw [bigEndian_succ, bigEndian_succ]
  rfl

theorem encode_repeated (n : ℕ) :
    encode (repeated [0x50, 0x50, 0x50, 0x32] n) = repeated [0x50, 0x50, 0x50, 0x32] n := by
  have hascii : ∀ c ∈ ([0x50, 0x50, 0x50, 0x32] : List UInt16), 1 ≤ c.toNat ∧ c.toNat ≤ 0x7F := by
    intro c hc
    have hletter : c = 0x50 ∨ c = 0x32 := by simpa using hc
    rcases hletter with rfl | rfl
    · decide
    · decide
  rw [encode_of_ascii fun c hc => hascii c (mem_of_mem_repeated hc), repeated_map]
  rfl

theorem encode_selfText : encode selfText = repeated [0x50, 0x50, 0x50, 0x32] 0x5032 :=
  encode_repeated 0x5032

theorem length_encode_selfText : (encode selfText).length = 0x5032 := by
  rw [encode_selfText, length_repeated (List.cons_ne_nil _ _)]

theorem readUTF_selfText (rest : List UInt8) :
    readUTF (magic ++ (bigEndian 2 (encode selfText).length ++ encode selfText ++ rest)) =
      some (selfText, magic ++ rest) := by
  have hword : ([0x50, 0x50, 0x50, 0x32] : List UInt8) ≠ [] := List.cons_ne_nil _ _
  have hletters : 0x50 :: 0x50 :: (bigEndian 2 0x5032 ++ encode selfText ++ rest) =
      [0x50, 0x50, 0x50, 0x32] ++ (repeated [0x50, 0x50, 0x50, 0x32] 0x5032 ++ rest) := by
    rw [encode_selfText, List.append_assoc]
    rfl
  rw [length_encode_selfText, readUTF_magic, hletters]
  refine ⟨?_, ?_, ?_⟩
  · rw [List.length_append, List.length_append, length_encode_selfText]
    omega
  · rw [take_append_repeated hword, ← encode_selfText, decode_encode]
  · exact drop_append_repeated hword 5132 2 rest

/-- A text that is read back from behind the letters begins with the last two of them and the units
in the place of its length. The rest of it is its own beginning. -/
theorem exists_units {s : List UInt16} {rest data : List UInt8}
    (h : readUTF (magic ++ (bigEndian 2 (encode s).length ++ encode s ++ rest)) = some (s, data)) :
    ∃ units u, s = 0x50 :: 0x50 :: (units ++ u) ∧ u <+: s ∧ (encode u).length = 20526 ∧
      ((UInt8.ofNat (encode s).length).toNat < 0x80 ∧
          units = [UInt16.ofNat (UInt8.ofNat ((encode s).length / 256)).toNat,
            UInt16.ofNat (UInt8.ofNat (encode s).length).toNat] ∨
        0x80 ≤ (UInt8.ofNat ((encode s).length / 256)).toNat ∧ units.length = 1) := by
  obtain ⟨-, hdecode, -⟩ := readUTF_magic.mp h
  have hcount : 0x5032 = 20526 + 1 + 1 + 1 + 1 := rfl
  have hletter : (0x50 : UInt8).toNat < 0x80 := by decide
  rw [bigEndian_two, hcount] at hdecode
  simp only [List.cons_append, List.nil_append, List.take_succ_cons] at hdecode
  generalize (encode s).length = L at hdecode ⊢
  rw [decode_of_lt hletter, Option.map_eq_some_iff] at hdecode
  obtain ⟨s', hdecode, rfl⟩ := hdecode
  rw [decode_of_lt hletter, Option.map_eq_some_iff] at hdecode
  obtain ⟨t, hdecode, rfl⟩ := hdecode
  -- The text begins with a letter, and the byte in front of it does not need more.
  have hbegin : (encode (0x50 :: 0x50 :: t) ++ rest).take 20526 =
      0x50 :: (encode (0x50 :: t) ++ rest).take 20525 := by
    rw [encode_cons]
    rfl
  have hcontinues : continues 0x50 = false := rfl
  obtain ⟨units, u, rfl, hu, hunits⟩ := decode_pair hcontinues (hbegin ▸ hdecode)
  rw [← hbegin] at hu
  rcases decode_take_encode_append hu with hbegins | ⟨hbegins, hlength⟩
  · have hle := hbegins.length_le
    simp only [List.length_cons, List.length_append] at hle
    omega
  · exact ⟨units, u, rfl, hbegins, hlength, hunits⟩

/-- The units in the place of the length: with six letters at most they are `P2`. -/
theorem units_eq {L : ℕ} {units : List UInt16} (hL : L = 2 + (encode units).length + 20526)
    (hunits : (UInt8.ofNat L).toNat < 0x80 ∧
        units = [UInt16.ofNat (UInt8.ofNat (L / 256)).toNat, UInt16.ofNat (UInt8.ofNat L).toNat] ∨
      0x80 ≤ (UInt8.ofNat (L / 256)).toNat ∧ units.length = 1) :
    units = [0x50, 0x32] := by
  have hencode := length_encode units
  have hhigh : (UInt8.ofNat (L / 256)).toNat = L / 256 % 256 := UInt8.toNat_ofNat'
  have hlow : (UInt8.ofNat L).toNat = L % 256 := UInt8.toNat_ofNat'
  rw [hhigh, hlow] at hunits
  rcases hunits with ⟨hascii, hunits⟩ | ⟨hlead, hunits⟩
  · have htwo : units.length = 2 := by
      rw [hunits]
      rfl
    have hdigit : L / 256 % 256 = 0x50 := by omega
    have hpos : 1 ≤ L % 256 := by omega
    rw [hdigit] at hunits
    have hbytes : (encode units).length = 2 := by
      rw [encode_of_ascii, List.length_map, htwo]
      intro c hc
      rw [hunits] at hc
      rcases List.mem_pair.mp hc with rfl | rfl
      · decide
      · rw [UInt16.toNat_ofNat', Nat.mod_eq_of_lt (by omega)]
        omega
    have hlast : L % 256 = 0x32 := by omega
    rw [hlast] at hunits
    exact hunits
  · omega

/-- Whoever reads the own text behind the letters has sent the text that repeats them. -/
theorem eq_selfText {s : List UInt16} {rest data : List UInt8}
    (h : readUTF (magic ++ (bigEndian 2 (encode s).length ++ encode s ++ rest)) = some (s, data)) :
    s = selfText := by
  obtain ⟨units, u, hs, hbegins, hu, hunits⟩ := exists_units h
  have hletters : encode (0x50 :: 0x50 :: (units ++ u)) = 0x50 :: 0x50 :: encode (units ++ u) := rfl
  have hlength : (encode s).length = 2 + (encode units).length + 20526 := by
    rw [hs, hletters, encode_append, List.length_cons, List.length_cons, List.length_append, hu]
    omega
  have htwo : units = [0x50, 0x32] := units_eq hlength hunits
  have hword : ([0x50, 0x50, 0x50, 0x32] : List UInt16) ≠ [] := List.cons_ne_nil _ _
  have hbegin : s = [0x50, 0x50, 0x50, 0x32] ++ u := by
    rw [hs, htwo]
    rfl
  have hself : s <+: [0x50, 0x50, 0x50, 0x32] ++ s := by
    conv_lhs => rw [hbegin]
    exact (List.prefix_append_right_inj _).mpr hbegins
  have hrepeated := (prefix_append_iff hword).mp hself
  have hcount : s.length = 0x5032 := by
    have hbytes := congrArg (fun t => (encode t).length) hrepeated
    rw [encode_repeated, length_repeated (List.cons_ne_nil _ _)] at hbytes
    rw [← hbytes, hlength, htwo]
    rfl
  rw [hrepeated, hcount, selfText]

theorem readUTF_shifted_iff {s : List UInt16} {rest data : List UInt8} :
    readUTF (magic ++ (bigEndian 2 (encode s).length ++ encode s ++ rest)) = some (s, data) ↔
      s = selfText ∧ data = magic ++ rest := by
  constructor
  · intro h
    obtain rfl := eq_selfText h
    rw [readUTF_selfText, Option.some.injEq, Prod.mk.injEq] at h
    exact ⟨rfl, h.2.symm⟩
  · rintro ⟨rfl, rfl⟩
    exact readUTF_selfText rest

namespace P2PMessage

/-- All four letters are read as the length of a payload. -/
theorem readPayload_magic {data rest : List UInt8} {payload : Payload} :
    readPayload (magic ++ data) = some (payload, rest) ↔
      0x50325050 ≤ data.length ∧ data.take 0x50325050 = payload.1 ∧
        data.drop 0x50325050 = rest := by
  have hmagic : magic = bigEndian 4 0x50325050 := by decide
  rw [readPayload, hmagic, readNumber_append (by omega), Option.bind_eq_bind, Option.bind_some]
  simp only [Option.bind_eq_bind, Option.bind_eq_some_iff, Prod.exists, readFully_eq_some_iff,
    Option.dite_none_right_eq_some, Option.some.injEq, Prod.mk.injEq, Subtype.ext_iff]
  constructor
  · rintro ⟨_, _, ⟨hlength, rfl, rfl⟩, -, hpayload, rfl⟩
    exact ⟨hlength, hpayload, rfl⟩
  · rintro ⟨hlength, hpayload, rfl⟩
    exact ⟨_, _, ⟨hlength, rfl, rfl⟩, by rw [hpayload]; exact payload.2, hpayload, rfl⟩

theorem length_selfPayload : selfPayload.length = 0x50325050 := length_repeated magic_ne_nil _

theorem bigEndian_letters : bigEndian 4 0x50325050 = magic := by decide

theorem readPayload_selfPayload {payload : Payload} (hself : payload.1 = selfPayload)
    (rest : List UInt8) :
    readPayload (magic ++ (bigEndian 4 payload.1.length ++ (payload.1 ++ rest))) =
      some (payload, magic ++ rest) := by
  rw [readPayload_magic, hself, length_selfPayload, bigEndian_letters]
  refine ⟨?_, take_append_repeated magic_ne_nil _ rest, ?_⟩
  · rw [List.length_append, List.length_append, length_selfPayload]
    omega
  · exact drop_append_repeated magic_ne_nil 0x140C9414 0 rest

theorem eq_selfPayload {payload : Payload} {rest data : List UInt8}
    (h : readPayload (magic ++ (bigEndian 4 payload.1.length ++ (payload.1 ++ rest))) =
      some (payload, data)) : payload.1 = selfPayload := by
  obtain ⟨hlength, htake, -⟩ := readPayload_magic.mp h
  have hcount : payload.1.length = 0x50325050 := by
    rw [← htake, List.length_take, Nat.min_eq_left hlength]
  rw [hcount, bigEndian_letters, ← hcount] at htake
  rw [eq_repeated_of_take magic_ne_nil htake, hcount, selfPayload]

theorem readPayload_shifted_iff {payload : Payload} {rest data : List UInt8} :
    readPayload (magic ++ (bigEndian 4 payload.1.length ++ (payload.1 ++ rest))) =
        some (payload, data) ↔
      payload.1 = selfPayload ∧ data = magic ++ rest := by
  constructor
  · intro h
    have hself := eq_selfPayload h
    rw [readPayload_selfPayload hself, Option.some.injEq, Prod.mk.injEq] at h
    exact ⟨hself, h.2.symm⟩
  · rintro ⟨hself, rfl⟩
    exact readPayload_selfPayload hself rest

/-! ## Which messages are understood -/

/-- The packet that carries a message. -/
def packet (m : P2PMessage) : Option (List UInt8) := m.toBytes.map (magic ++ ·)

/-- A message that consists of the letters of its packet. -/
structure SelfSimilar (m : P2PMessage) : Prop where
  source : m.source = selfText
  destination : m.destination = selfText
  payload : m.payload.1 = selfPayload
  type : m.type = selfText

theorem same_fromBytes_magic_iff {m : P2PMessage} {bytes : List UInt8}
    (hbytes : m.toBytes = some bytes) (nanoTime : UInt64) :
    (∃ n, fromBytes (magic ++ bytes) nanoTime = some n ∧ m.Same n) ↔ m.SelfSimilar := by
  obtain ⟨-, rfl⟩ := toBytes_eq_some_iff.mp hbytes
  constructor
  · rintro ⟨⟨source, destination, payload, type, messageId⟩, h, rfl, rfl, rfl, rfl⟩
    obtain ⟨d₁, d₂, d₃, d₄, h₁, h₂, h₃, h₄, -⟩ := fromBytes_eq_some_iff.mp h
    obtain ⟨hsource, rfl⟩ := readUTF_shifted_iff.mp h₁
    obtain ⟨hdestination, rfl⟩ := readUTF_shifted_iff.mp h₂
    obtain ⟨hpayload, rfl⟩ := readPayload_shifted_iff.mp h₃
    exact ⟨hsource, hdestination, hpayload, (readUTF_shifted_iff.mp h₄).1⟩
  · intro h
    refine ⟨{ m with messageId := nanoTime }, ?_, rfl, rfl, rfl, rfl⟩
    refine fromBytes_eq_some_iff.mpr ⟨_, _, _, _, readUTF_shifted_iff.mpr ⟨h.source, rfl⟩,
      readUTF_shifted_iff.mpr ⟨h.destination, rfl⟩, readPayload_shifted_iff.mpr ⟨h.payload, rfl⟩,
      readUTF_shifted_iff.mpr ⟨h.type, rfl⟩, ?_, rfl⟩
    rw [List.length_append, length_bigEndian]
    omega

end P2PMessage

/-- A message is classified and decoded from its packet, and alone it reads back with its id. -/
structure Understood (m : P2PMessage) (session : PeerSession) (activeSessions : List PeerSession)
    (handledAt decodedAt : UInt64) : Prop where
  classified : ∃ data, m.packet = some data ∧ identifyPacket data = .p2p
  handled : ∃ data, m.packet = some data ∧
    ∃ n, (handleP2PPacket session activeSessions data handledAt).message = some n ∧ m.Same n
  preserved : ∃ bytes, m.toBytes = some bytes ∧
    ∃ n, P2PMessage.fromBytes bytes decodedAt = some n ∧ m.Same n ∧ n.messageId = m.messageId

theorem P2PMessage.SelfSimilar.toBytes {m : P2PMessage} (h : m.SelfSimilar) :
    ∃ bytes, m.toBytes = some bytes := by
  have hle : (encode selfText).length ≤ 65535 := by
    rw [length_encode_selfText]
    omega
  refine ⟨_, P2PMessage.toBytes_eq_some_iff.mpr ⟨?_, rfl⟩⟩
  rw [h.source, h.destination, h.type]
  exact ⟨hle, hle, hle⟩

/-- Exactly the messages that consist of the letters are understood, and only when the clock shows
their id. -/
theorem understood_iff (m : P2PMessage) (session : PeerSession)
    (activeSessions : List PeerSession) (handledAt decodedAt : UInt64) :
    Understood m session activeSessions handledAt decodedAt ↔
      decodedAt = m.messageId ∧ m.SelfSimilar := by
  constructor
  · rintro ⟨-, ⟨data, hdata, hhandled⟩, ⟨bytes, hbytes, n, hn, -, hid⟩⟩
    rw [P2PMessage.packet, hbytes] at hdata
    obtain rfl := Option.some.inj hdata
    rw [handleP2PPacket_message] at hhandled
    rw [P2PMessage.fromBytes_toBytes hbytes] at hn
    obtain rfl := Option.some.inj hn
    exact ⟨hid, (P2PMessage.same_fromBytes_magic_iff hbytes handledAt).mp hhandled⟩
  · rintro ⟨rfl, h⟩
    obtain ⟨bytes, hbytes⟩ := h.toBytes
    have hpacket : m.packet = some (magic ++ bytes) := by
      rw [P2PMessage.packet, hbytes]
      rfl
    refine ⟨⟨_, hpacket, identifyPacket_magic bytes⟩, ⟨_, hpacket, ?_⟩, ⟨bytes, hbytes, m, ?_⟩⟩
    · rw [handleP2PPacket_message]
      exact (P2PMessage.same_fromBytes_magic_iff hbytes handledAt).mpr h
    · exact ⟨P2PMessage.fromBytes_toBytes hbytes _, ⟨rfl, rfl, rfl, rfl⟩, rfl⟩

/-- From `a` to `b`, empty and of the type `DATA`. -/
def shortMessage : P2PMessage := ⟨[0x61], [0x62], ⟨[], by decide⟩, [0x44, 0x41, 0x54, 0x41], 7⟩

/-- Its packet ends long before the text whose length is `P2`. -/
theorem not_understood_shortMessage : ¬Understood shortMessage ⟨[0x63], none⟩ [] 7 7 := by
  rintro ⟨-, ⟨data, hdata, n, hn, -⟩, -⟩
  have hnone : (shortMessage.packet.bind (P2PMessage.fromBytes · 7)).isNone = true := by decide
  rw [handleP2PPacket_message] at hn
  rw [hdata, Option.bind_some, hn] at hnone
  cases hnone

end Blackstone.SecurityProxy
