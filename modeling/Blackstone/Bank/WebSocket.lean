import Blackstone.Bank.Sha1
import Blackstone.Library.BigEndian
import Blackstone.Library.Framing

/-!
# WebSocket frames

`sendFrame` and `receiveFrame` of `websocket.cpp`, for the server and for the client. The server
sets the mask bit and sends no mask, which a client does not look at; a client never sets it. What
one of them sends frame by frame, the other one receives (`receiveFrame_sendFrame`).
-/

namespace Blackstone.Bank

open BigEndian Framing

namespace WebSocket

/-- The receiving end of a socket: the bytes that were not received yet, and how often payload was
received. -/
structure Receiver where
  stream : Str
  calls : ℕ

/-! ## Sending -/

/-- The length of a payload, after the first byte of a frame. -/
def lengthField (maskBit len : ℕ) : Str :=
  if len ≤ 125 then [UInt8.ofNat (maskBit ||| len)]
  else if len ≤ 65535 then
    [UInt8.ofNat (maskBit ||| 126), UInt8.ofNat (len >>> 8 &&& 0xFF), UInt8.ofNat (len &&& 0xFF)]
  else
    UInt8.ofNat (maskBit ||| 127) ::
      (List.range 8).reverse.map (fun i => UInt8.ofNat (len >>> (i * 8) &&& 0xFF))

/-- The frame that is sent for a payload. -/
def sendFrame (maskBit : ℕ) (data : Str) : Str := 0x81 :: lengthField maskBit data.length ++ data

/-! ## Receiving -/

/-- A `recv` of a fixed number of bytes that delivers them all. -/
def recvFixed (n : ℕ) (sock : Receiver) : Option (Str × Receiver) :=
  if n ≤ sock.stream.length then
    some (sock.stream.take n, { sock with stream := sock.stream.drop n })
  else none

/-- The most that one `recv` transfers. -/
def maxTransfer : ℕ := 0x7FFFF000

/-- A `recv` of payload: call `k` delivers at most `parts k + 1` bytes. -/
def recvPart (parts : ℕ → ℕ) (n : ℕ) (sock : Receiver) : Str × Receiver :=
  let part := sock.stream.take (min (min n maxTransfer) (parts sock.calls + 1))
  (part, { stream := sock.stream.drop part.length, calls := sock.calls + 1 })

/-- The number that the bytes after a length of 126 or 127 write. -/
def readLength (ext : Str) : UInt64 := ext.foldl (fun n b => n <<< 8 ||| b.toUInt64) 0

/-- The length of the payload, from the last seven bits of the second byte. -/
def receiveLength (short : UInt8) (sock : Receiver) : Option (UInt64 × Receiver) :=
  if short = 126 then (recvFixed 2 sock).map fun p => (readLength p.1, p.2)
  else if short = 127 then (recvFixed 8 sock).map fun p => (readLength p.1, p.2)
  else some (short.toUInt64, sock)

/-- The loop that receives the payload, after `payload`; `none` where a `recv` fails. -/
def receivePayload (parts : ℕ → ℕ) (payloadLen : ℕ) (payload : Str) (sock : Receiver) :
    Option Str × Receiver :=
  if payload.length < payloadLen then
    let (part, sock) := recvPart parts (payloadLen - payload.length) sock
    -- `recv` returns the count, which is put into an `int`
    let r := Int32.ofNat part.length
    if r ≤ 0 then (none, sock)
    else receivePayload parts payloadLen (payload ++ part) sock
  else (some payload, sock)
termination_by payloadLen - payload.length
decreasing_by
  rename_i hr
  have hpart : part.length ≠ 0 := by
    intro hzero
    apply hr
    change Int32.ofNat part.length ≤ 0
    rw [hzero]
    decide
  rw [List.length_append]
  omega

/-- The payload with the mask taken off. -/
def unmask (mask payload : Str) : Str := payload.mapIdx fun i b => b ^^^ mask.getD (i % 4) 0

/-- A frame that is received, with `closed`; `none` where the length or the mask is cut off, and the
code goes on with what its buffer held before. -/
def receiveFrame (unmasks : Bool) (parts : ℕ → ℕ) (sock : Receiver) :
    Option ((Str × Bool) × Receiver) :=
  match recvFixed 2 sock with
  | none => some (([], true), { sock with stream := [] })
  | some (header, sock) => do
    let opcode := header.getD 0 0 &&& 0x0F
    let masked := unmasks && header.getD 1 0 &&& 0x80 != 0
    let (payloadLen, sock) ← receiveLength (header.getD 1 0 &&& 0x7F) sock
    let (mask, sock) ← if masked then recvFixed 4 sock else some ([], sock)
    match receivePayload parts payloadLen.toNat [] sock with
    | (none, sock) => return (([], true), sock)
    | (some payload, sock) =>
      let payload := if masked then unmask mask payload else payload
      if opcode = 0x08 then return (([], true), sock) else return ((payload, false), sock)

/-! ## The length of a payload -/

theorem ofNat_shiftRight_and (n i : ℕ) :
    UInt8.ofNat (n >>> (i * 8) &&& 0xFF) = UInt8.ofNat (n / 256 ^ i) := by
  have hpow : 2 ^ (i * 8) = 256 ^ i := by
    rw [mul_comm, pow_mul]
    rfl
  have hlow : n / 256 ^ i &&& 0xFF = n / 256 ^ i % 256 := Nat.and_two_pow_sub_one_eq_mod _ 8
  apply UInt8.toNat_inj.mp
  rw [Nat.shiftRight_eq_div_pow, hpow, hlow, UInt8.toNat_ofNat', UInt8.toNat_ofNat',
    Nat.mod_mod]

/-- The shifts of a length are its bytes, the most significant one first. -/
theorem map_shiftRight (k n : ℕ) :
    (List.range k).reverse.map (fun i => UInt8.ofNat (n >>> (i * 8) &&& 0xFF)) =
      bigEndian k n := by
  have hreverse : (List.range k).reverse = (List.range k).map (k - 1 - ·) := by
    rw [List.range_eq_range', List.reverse_range', Nat.zero_add, List.range_eq_range']
  rw [hreverse, List.map_map, bigEndian]
  exact List.map_congr_left fun i _ => ofNat_shiftRight_and n (k - 1 - i)

theorem readLength_concat (ext : Str) (b : UInt8) :
    readLength (ext ++ [b]) = readLength ext <<< 8 ||| b.toUInt64 := by
  rw [readLength, List.foldl_append]
  rfl

theorem toNat_readLength {ext : Str} (h : ext.length ≤ 8) :
    (readLength ext).toNat = ofBigEndian ext := by
  induction ext using List.reverseRecOn with
  | nil => rfl
  | append_singleton ext b ih =>
    rw [List.length_append, List.length_singleton] at h
    have hb : b.toNat < 2 ^ 8 := b.toNat_lt
    have hlt : 2 ^ 8 * ofBigEndian ext < 2 ^ 64 := by
      have hext := ofBigEndian_lt ext
      have hpow : 256 ^ ext.length ≤ 256 ^ 7 := Nat.pow_le_pow_right (by decide) (by omega)
      omega
    have hshift : (readLength ext).toNat <<< 8 = 2 ^ 8 * ofBigEndian ext := by
      rw [ih (by omega), Nat.shiftLeft_eq, mul_comm]
    calc (readLength (ext ++ [b])).toNat
        = (readLength ext).toNat <<< 8 % 2 ^ 64 ||| b.toNat := by
          rw [readLength_concat, UInt64.toNat_or, UInt64.toNat_shiftLeft, UInt8.toNat_toUInt64]
          rfl
      _ = 2 ^ 8 * ofBigEndian ext ||| b.toNat := by rw [hshift, Nat.mod_eq_of_lt hlt]
      _ = 256 * ofBigEndian ext + b.toNat := (Nat.two_pow_add_eq_or_of_lt hb _).symm
      _ = ofBigEndian (ext ++ [b]) := (ofBigEndian_concat ext b).symm

theorem readLength_bigEndian {k n : ℕ} (hk : k ≤ 8) (hn : n < 256 ^ k) :
    readLength (bigEndian k n) = UInt64.ofNat n := by
  have hpow : 256 ^ k ≤ 256 ^ 8 := Nat.pow_le_pow_right (by decide) hk
  apply UInt64.toNat_inj.mp
  rw [toNat_readLength (by rwa [length_bigEndian]), ofBigEndian_bigEndian, Nat.mod_eq_of_lt hn,
    UInt64.toNat_ofNat_of_lt' (hn.trans_le hpow)]

/-- A length is written as seven bits, and as two or eight bytes where they say so. -/
theorem lengthField_eq (maskBit : ℕ) {len : ℕ} (h : len < 2 ^ 63) :
    ∃ short k, lengthField maskBit len = UInt8.ofNat (maskBit ||| short) :: bigEndian k len ∧
      (short = len ∧ len ≤ 125 ∧ k = 0 ∨ short = 126 ∧ k = 2 ∨ short = 127 ∧ k = 8) ∧
      (k ≠ 0 → len < 256 ^ k) := by
  rw [lengthField]
  split_ifs with hshort hmiddle
  · exact ⟨len, 0, rfl, Or.inl ⟨rfl, hshort, rfl⟩, fun hk => absurd rfl hk⟩
  · refine ⟨126, 2, ?_, Or.inr (Or.inl ⟨rfl, rfl⟩), fun _ => by omega⟩
    rw [← map_shiftRight]
    rfl
  · refine ⟨127, 8, ?_, Or.inr (Or.inr ⟨rfl, rfl⟩), fun _ => by omega⟩
    rw [map_shiftRight]

/-! ## A frame that was sent is received -/

theorem recvFixed_of_eq {front rest : Str} {sock : Receiver} (h : sock.stream = front ++ rest) :
    recvFixed front.length sock = some (front, { sock with stream := rest }) := by
  rw [recvFixed, h, if_pos (by rw [List.length_append]; omega), List.take_left, List.drop_left]

theorem receiveLength_of_eq {short k len : ℕ} {rest : Str} {sock : Receiver}
    (hshort : short = len ∧ len ≤ 125 ∧ k = 0 ∨ short = 126 ∧ k = 2 ∨ short = 127 ∧ k = 8)
    (hlen : k ≠ 0 → len < 256 ^ k) (h : sock.stream = bigEndian k len ++ rest) :
    receiveLength (UInt8.ofNat short) sock =
      some (UInt64.ofNat len, { sock with stream := rest }) := by
  have hrecv := recvFixed_of_eq h
  rw [length_bigEndian] at hrecv
  rcases hshort with ⟨rfl, hle, rfl⟩ | ⟨rfl, rfl⟩ | ⟨rfl, rfl⟩
  · have hne : ∀ i : Fin 126, UInt8.ofNat i ≠ 126 ∧ UInt8.ofNat i ≠ 127 := by decide
    obtain ⟨h126, h127⟩ := hne ⟨short, by omega⟩
    have hvalue : (UInt8.ofNat short).toUInt64 = UInt64.ofNat short := by
      apply UInt64.toNat_inj.mp
      rw [UInt8.toNat_toUInt64, UInt8.toNat_ofNat_of_lt' (by change _ < 256; omega),
        UInt64.toNat_ofNat_of_lt' (by change _ < 2 ^ 64; omega)]
    have hstream : sock.stream = rest := h
    rw [receiveLength, if_neg h126, if_neg h127, hvalue, ← hstream]
  · rw [receiveLength, if_pos (by decide), hrecv, Option.map_some,
      readLength_bigEndian (by decide) (hlen (by decide))]
  · rw [receiveLength, if_neg (by decide), if_pos (by decide), hrecv, Option.map_some,
      readLength_bigEndian (by decide) (hlen (by decide))]

/-- A `recv` of payload takes a part from the front, and the count of it is positive. -/
theorem recvPart_append (parts : ℕ → ℕ) {data : Str} (hdata : data ≠ []) (rest : Str)
    (calls : ℕ) :
    ∃ front back, data = front ++ back ∧ front ≠ [] ∧
      recvPart parts data.length ⟨data ++ rest, calls⟩ = (front, ⟨back ++ rest, calls + 1⟩) ∧
      ¬ Int32.ofNat front.length ≤ 0 := by
  have hpositive : 0 < data.length := List.length_pos_of_ne_nil hdata
  have hmax : 0 < maxTransfer := by decide
  generalize hcount : min (min data.length maxTransfer) (parts calls + 1) = count
  have hle : count ≤ data.length := by omega
  have hlength : (data.take count).length = count := List.length_take_of_le hle
  have htake : (data ++ rest).take count = data.take count := List.take_append_of_le_length hle
  refine ⟨data.take count, data.drop count, (List.take_append_drop _ _).symm, ?_, ?_, ?_⟩
  · apply List.ne_nil_of_length_pos
    omega
  · simp only [recvPart, hcount, htake, hlength, List.drop_append_of_le_length hle]
  · have hfits : count < 2 ^ 31 := by
      have : maxTransfer < 2 ^ 31 := by decide
      omega
    have hvalue : (Int32.ofNat count).toInt = count := Int32.toInt_ofNat_of_lt hfits
    rw [hlength, Int32.le_iff_toInt_le, hvalue]
    change ¬ (count : ℤ) ≤ 0
    omega

/-- The payload is put together from its parts, however it is cut. -/
theorem receivePayload_append (parts : ℕ → ℕ) (payload data rest : Str) (calls : ℕ) :
    ∃ calls', receivePayload parts (payload ++ data).length payload ⟨data ++ rest, calls⟩ =
      (some (payload ++ data), ⟨rest, calls'⟩) := by
  induction hn : data.length using Nat.strong_induction_on generalizing payload data calls with
  | _ n ih =>
    by_cases hdata : data = []
    · subst hdata
      refine ⟨calls, ?_⟩
      rw [List.append_nil, receivePayload, if_neg (lt_irrefl _), List.nil_append]
    · obtain ⟨front, back, hsplit, hfront, hrecv, hr⟩ := recvPart_append parts hdata rest calls
      have hremaining : (payload ++ data).length - payload.length = data.length := by
        rw [List.length_append, Nat.add_sub_cancel_left]
      have hlt : payload.length < (payload ++ data).length := by
        have hpositive := List.length_pos_of_ne_nil hdata
        rw [List.length_append]
        omega
      have hback : back.length < n := by
        have hpositive := List.length_pos_of_ne_nil hfront
        rw [← hn, hsplit, List.length_append]
        omega
      obtain ⟨calls', hrest⟩ := ih back.length hback (payload ++ front) back (calls + 1) rfl
      refine ⟨calls', ?_⟩
      rw [List.append_assoc, ← hsplit] at hrest
      rw [receivePayload, if_pos hlt, hremaining, hrecv]
      simp only [hr, if_false, hrest]

/-- The mask bit does not touch the length, and is not set where it was not sent. -/
theorem second_byte (maskBit : ℕ) {short : ℕ} (hshort : short < 128) :
    (maskBit = 0 ∨ maskBit = 0x80 →
      UInt8.ofNat (maskBit ||| short) &&& 0x7F = UInt8.ofNat short) ∧
      UInt8.ofNat (0 ||| short) &&& 0x80 = 0 := by
  have hbits : ∀ i : Fin 128, UInt8.ofNat (0 ||| i) &&& 0x7F = UInt8.ofNat i ∧
      UInt8.ofNat (0x80 ||| i) &&& 0x7F = UInt8.ofNat i ∧ UInt8.ofNat (0 ||| i) &&& 0x80 = 0 := by
    decide
  obtain ⟨hclear, hset, hunset⟩ := hbits ⟨short, hshort⟩
  refine ⟨?_, hunset⟩
  rintro (rfl | rfl)
  · exact hclear
  · exact hset

/-- A frame is received as its payload, unless a mask is expected that was not sent. -/
theorem receiveFrame_of_eq {maskBit : ℕ} {unmasks : Bool} (parts : ℕ → ℕ)
    (hmask : maskBit = 0 ∨ maskBit = 0x80 ∧ unmasks = false) {data rest : Str} {sock : Receiver}
    (hdata : data.length < 2 ^ 63) (h : sock.stream = sendFrame maskBit data ++ rest) :
    ∃ sock', receiveFrame unmasks parts sock = some ((data, false), sock') ∧
      sock'.stream = rest := by
  obtain ⟨short, k, hfield, hshort, hlen⟩ := lengthField_eq maskBit hdata
  obtain ⟨hsecond, hunset⟩ := @second_byte maskBit short (by omega)
  replace hsecond := hsecond (by omega)
  have hmasked : (unmasks && UInt8.ofNat (maskBit ||| short) &&& 0x80 != 0) = false := by
    rcases hmask with rfl | ⟨-, rfl⟩
    · rw [hunset, bne_self_eq_false, Bool.and_false]
    · exact Bool.false_and _
  have hstream : sock.stream =
      [0x81, UInt8.ofNat (maskBit ||| short)] ++ (bigEndian k data.length ++ (data ++ rest)) := by
    rw [h, sendFrame, hfield, List.cons_append, List.cons_append, List.append_assoc]
    rfl
  have hheader : recvFixed 2 sock = some ([0x81, UInt8.ofNat (maskBit ||| short)],
      ⟨bigEndian k data.length ++ (data ++ rest), sock.calls⟩) := recvFixed_of_eq hstream
  have hlength : receiveLength (UInt8.ofNat short)
      ⟨bigEndian k data.length ++ (data ++ rest), sock.calls⟩ =
      some (UInt64.ofNat data.length, ⟨data ++ rest, sock.calls⟩) :=
    receiveLength_of_eq hshort hlen rfl
  have hvalue : (UInt64.ofNat data.length).toNat = data.length :=
    UInt64.toNat_ofNat_of_lt' (hdata.trans (by decide))
  obtain ⟨calls, hpayload⟩ : ∃ calls, receivePayload parts data.length []
      ⟨data ++ rest, sock.calls⟩ = (some data, ⟨rest, calls⟩) :=
    receivePayload_append parts [] data rest sock.calls
  refine ⟨⟨rest, calls⟩, ?_, rfl⟩
  rw [receiveFrame, hheader]
  have hopcode : ¬ (0x81 : UInt8) &&& 0x0F = 0x08 := by decide
  simp only [List.getD_cons_zero, List.getD_cons_succ, hmasked, hsecond, hlength,
    Option.bind_eq_bind, Option.bind_some, Bool.false_eq_true, if_false, hvalue, hpayload, hopcode]
  rfl

/-- Frames of one end are received one by one. -/
theorem readMany_sendFrame {maskBit : ℕ} {unmasks : Bool} (parts : ℕ → ℕ)
    (hmask : maskBit = 0 ∨ maskBit = 0x80 ∧ unmasks = false) {payloads : List Str}
    (h : ∀ data ∈ payloads, data.length < 2 ^ 63) (calls : ℕ) :
    ∃ calls', readMany (receiveFrame unmasks parts) payloads.length
        ⟨payloads.flatMap (sendFrame maskBit), calls⟩ =
      some (payloads.map (fun data => (data, false)), ⟨[], calls'⟩) := by
  have hstart : (⟨payloads.flatMap (sendFrame maskBit), calls⟩ : Receiver).stream =
      payloads.flatMap (sendFrame maskBit) ++ [] := (List.append_nil _).symm
  have hframe (data rest : Str) (sock : Receiver) (hdata : data.length < 2 ^ 63)
      (hsock : sock.stream = sendFrame maskBit data ++ rest) :=
    receiveFrame_of_eq parts hmask hdata hsock
  obtain ⟨sock', hread, hstream⟩ :=
    readMany_eq (fun bytes (sock : Receiver) => sock.stream = bytes) hframe h hstart
  exact ⟨sock'.calls, by rw [hread, ← hstream]⟩

end WebSocket

/-- `WebSocketServer::sendFrame`. -/
def WebSocketServer.sendFrame (data : Str) : Str := WebSocket.sendFrame 0x80 data

/-- `WebSocketServer::receiveFrame`. -/
def WebSocketServer.receiveFrame := WebSocket.receiveFrame true

/-- `WebSocketClient::sendFrame`. -/
def WebSocketClient.sendFrame (data : Str) : Str := WebSocket.sendFrame 0 data

/-- `WebSocketClient::receiveFrame`, which has no mask to take off. -/
def WebSocketClient.receiveFrame := WebSocket.receiveFrame false

/-! ## Both directions -/

/-- What one end sends frame by frame, the other one receives, however its payload is cut. -/
theorem receiveFrame_sendFrame (parts : ℕ → ℕ) {payloads : List Str}
    (h : ∀ data ∈ payloads, data.length < 2 ^ 63) (calls : ℕ) :
    (∃ calls', readMany (WebSocketClient.receiveFrame parts) payloads.length
        ⟨payloads.flatMap WebSocketServer.sendFrame, calls⟩ =
      some (payloads.map (fun data => (data, false)), ⟨[], calls'⟩)) ∧
    ∃ calls', readMany (WebSocketServer.receiveFrame parts) payloads.length
        ⟨payloads.flatMap WebSocketClient.sendFrame, calls⟩ =
      some (payloads.map (fun data => (data, false)), ⟨[], calls'⟩) := by
  constructor
  · exact WebSocket.readMany_sendFrame parts (Or.inr ⟨rfl, rfl⟩) h calls
  · exact WebSocket.readMany_sendFrame parts (Or.inl rfl) h calls

/-- Two frames whose payload comes byte by byte. -/
theorem receiveFrame_sendFrame_greeting :
    (∃ calls', readMany (WebSocketClient.receiveFrame (fun _ => 0)) 2
        ⟨[[104, 105], []].flatMap WebSocketServer.sendFrame, 0⟩ =
      some ([([104, 105], false), ([], false)], ⟨[], calls'⟩)) ∧
    ∃ calls', readMany (WebSocketServer.receiveFrame (fun _ => 0)) 2
        ⟨[[104, 105], []].flatMap WebSocketClient.sendFrame, 0⟩ =
      some ([([104, 105], false), ([], false)], ⟨[], calls'⟩) := by
  have hlengths : ∀ data ∈ [[104, 105], ([] : Str)], data.length < 2 ^ 63 := by decide
  exact receiveFrame_sendFrame (fun _ => 0) hlengths 0

end Blackstone.Bank
