import Blackstone.Library.ByteStream
import Blackstone.Library.Runs
import Blackstone.SecuritySystem.Packet

/-!
# Packets over a connection

`core/network.c`. `network_send_packet` writes a header and the data to the stream.
`network_receive_packet` waits until the header is there, takes it, and then reads the data once: a
read that returns what has arrived so far. The type is sent as one byte, and 0 is also what is
returned when there is no packet yet.

`Delivered` is the law of the link. A run keeps it in every state exactly when each call that takes
a header finds all the data of its packet and a type from 1 to 255 (`delivered_iff`).
-/

namespace Blackstone.SecuritySystem

open ByteOrder ByteStream Runs

/-- What `node_t` says about a connection. -/
structure Node where
  connected : Bool
  packetsSent : UInt64
  packetsReceived : UInt64
  bytesSent : UInt64
  bytesReceived : UInt64
  errors : UInt64
  lastActivity : UInt64

/-- A packet to be sent, with the clock before and after, and the byte of the array `header` that
is not written. -/
structure Message where
  type : ℤ
  data : List UInt8
  now : UInt64
  later : UInt64
  gap : UInt8

/-- The header of a message. -/
def Message.header (m : Message) : PacketHeader :=
  ⟨UInt8.ofInt m.type, swap32 (UInt32.ofNat m.data.length), swap32 (crc32 m.data),
    swap16 (m.now &&& 0xFFFF).toUInt16⟩

/-- `network_send_packet` for a node, where the two calls of `send` return the given values: the
node, what is written to the stream, and what is returned. -/
def networkSendPacket (node : Node) (m : Message) (headerSent dataSent : ℤ) :
    Node × List UInt8 × ℤ :=
  if !node.connected then (node, [], -1)
  else if headerSent ≠ 12 then
    ({ node with errors := node.errors + 1 }, (m.header.bytes m.gap).take headerSent.toNat, -1)
  else
    let written := m.header.bytes m.gap ++ m.data.take dataSent.toNat
    if 0 < dataSent then
      ({ node with
          packetsSent := node.packetsSent + 1
          bytesSent := node.bytesSent + UInt64.ofInt dataSent
          lastActivity := m.later }, written, dataSent)
    else ({ node with errors := node.errors + 1 }, written, dataSent)

/-- The bytes that arrive by themselves before each step of `network_receive_packet`, and the
clock. -/
structure Arrivals where
  select : ℕ
  peek : ℕ
  header : ℕ
  body : ℕ
  now : UInt64

/-- What `network_receive_packet` returns, and the data that it leaves in the buffer. -/
structure Received where
  result : ℤ
  data : List UInt8

/-- `network_receive_packet` for a node. -/
def networkReceivePacket (node : Node) (stream : Stream) (bufferSize : ℕ) (a : Arrivals) :
    Node × Stream × Received :=
  if !node.connected then (node, stream, ⟨-1, []⟩)
  else
    let stream := stream.deliver a.select
    if stream.buffered = [] then (node, stream, ⟨0, []⟩)
    else
      let (header, stream) := stream.peek a.peek 12
      if header.length < 12 then (node, stream, ⟨0, []⟩)
      else
        let type : ℤ := (header.getD 0 0).toNat
        let dataLen := swap32 (UInt32.ofNat (load ((header.drop 1).take 4)))
        let expectedCrc := swap32 (UInt32.ofNat (load ((header.drop 5).take 4)))
        if bufferSize < dataLen.toNat then (node, stream, ⟨-1, []⟩)
        else
          let (header, stream) := stream.recv a.header 12
          if header.length ≠ 12 then (node, stream, ⟨-1, []⟩)
          else
            let (body, stream) := stream.recv a.body dataLen.toNat
            if (body.length : ℤ) ≠ Int.bmod dataLen.toNat (2 ^ 32) then
              ({ node with errors := node.errors + 1 }, stream, ⟨-1, []⟩)
            else if crc32 body ≠ expectedCrc then
              ({ node with errors := node.errors + 1 }, stream, ⟨-1, []⟩)
            else
              ({ node with
                  packetsReceived := node.packetsReceived + 1
                  bytesReceived := node.bytesReceived + UInt64.ofNat body.length
                  lastActivity := a.now }, stream, ⟨type, body⟩)

/-- What is written when every message is sent whole. -/
def transmit (node : Node) : List Message → List UInt8
  | [] => []
  | m :: messages =>
    let sent := networkSendPacket node m 12 m.data.length
    sent.2.1 ++ transmit sent.1 messages

/-! ## Runs of the receiver -/

/-- The receiver, with what its calls have returned but for 0. -/
structure Receiver where
  node : Node
  stream : Stream
  received : List Received

/-- The receiver before the first call, with all the messages on their way. -/
def Receiver.start (sender node : Node) (sent : List Message) : Receiver :=
  ⟨node, ⟨[], transmit sender sent⟩, []⟩

/-- One call of `network_receive_packet`. -/
def Receiver.step (bufferSize : ℕ) (r : Receiver) (a : Arrivals) : Receiver :=
  let called := networkReceivePacket r.node r.stream bufferSize a
  ⟨called.1, called.2.1,
    if called.2.2.result = 0 then r.received else r.received ++ [called.2.2]⟩

/-- The bytes of a message. -/
def Message.wire (m : Message) : List UInt8 := m.header.bytes m.gap ++ m.data

/-- What the receiver should return for a message. -/
def Message.expected (m : Message) : Received := ⟨m.type, m.data⟩

/-- The first messages have been returned, and the stream is at the start of the next one. -/
def Delivered (sent : List Message) (r : Receiver) : Prop :=
  ∃ k, r.received = (sent.take k).map Message.expected ∧
    r.stream.unread = (sent.drop k).flatMap Message.wire

/-- The stream when the header is looked at. -/
def streamAtPeek (s : Stream) (a : Arrivals) : Stream := (s.deliver a.select).await a.peek 12

/-- The stream when `len` bytes of data are read. -/
def streamAtBody (s : Stream) (a : Arrivals) (len : ℕ) : Stream :=
  ((streamAtPeek s a).recv a.header 12).2.await a.body len

/-- A call takes a header. -/
def HeaderReady (s : Stream) (a : Arrivals) : Prop :=
  (s.deliver a.select).buffered ≠ [] ∧ 12 ≤ (streamAtPeek s a).buffered.length

/-- If the call takes a header, all the data of the next message have arrived when they are read,
and its type is one that can be returned. -/
def Whole (sent : List Message) (r : Receiver) (a : Arrivals) : Prop :=
  HeaderReady r.stream a → ∀ m, sent[r.received.length]? = some m →
    m.data.length ≤ (streamAtBody r.stream a m.data.length).buffered.length ∧
      1 ≤ m.type ∧ m.type ≤ 255

/-! ## One call -/

section Call

variable {node : Node} {s : Stream} {bufferSize : ℕ} {a : Arrivals} {m : Message}
  {rest : List UInt8}

theorem Message.length_wire (m : Message) : m.wire.length = 12 + m.data.length := by
  rw [Message.wire, List.length_append, PacketHeader.length_bytes]

/-- Without a header, nothing is taken. -/
theorem networkReceivePacket_idle (hconnected : node.connected = true)
    (hready : ¬HeaderReady s a) :
    ∃ s', networkReceivePacket node s bufferSize a = (node, s', ⟨0, []⟩) ∧
      s'.unread = s.unread := by
  rw [networkReceivePacket, hconnected, Bool.not_true, if_neg Bool.false_ne_true]
  dsimp only
  by_cases hempty : (s.deliver a.select).buffered = []
  · rw [if_pos hempty]
    exact ⟨_, rfl, Stream.unread_deliver s a.select⟩
  · have hshort : ((s.deliver a.select).peek a.peek 12).1.length < 12 := by
      by_contra hlong
      apply hready ⟨hempty, ?_⟩
      rw [Stream.peek, List.length_take] at hlong
      exact Nat.le_trans (Nat.not_lt.mp hlong) (Nat.min_le_right _ _)
    rw [if_neg hempty, if_pos hshort]
    refine ⟨_, rfl, ?_⟩
    rw [Stream.peek, Stream.unread_await, Stream.unread_deliver]

/-- The header of a message, as it is looked at. -/
theorem peek_ready (hready : HeaderReady s a) (hunread : s.unread = m.wire ++ rest) :
    ((s.deliver a.select).peek a.peek 12).1 = m.header.bytes m.gap := by
  have hsplit : (s.deliver a.select).unread = m.header.bytes m.gap ++ (m.data ++ rest) := by
    rw [Stream.unread_deliver, hunread, Message.wire, List.append_assoc]
  exact (Stream.recv_of_le hsplit (PacketHeader.length_bytes _ _) hready.2).1

/-- The header is taken whole. -/
theorem recv_header_ready (hready : HeaderReady s a) (hunread : s.unread = m.wire ++ rest) :
    ((streamAtPeek s a).recv a.header 12).1 = m.header.bytes m.gap ∧
      ((streamAtPeek s a).recv a.header 12).2.unread = m.data ++ rest := by
  have hsplit : (streamAtPeek s a).unread = m.header.bytes m.gap ++ (m.data ++ rest) := by
    rw [streamAtPeek, Stream.unread_await, Stream.unread_deliver, hunread, Message.wire,
      List.append_assoc]
  have hmore := (Stream.buffered_prefix_await (streamAtPeek s a) a.header 12).length_le
  exact Stream.recv_of_le hsplit (PacketHeader.length_bytes _ _) (Nat.le_trans hready.2 hmore)

/-- The fields of a header that was sent. -/
theorem Message.header_words (m : Message) (hlen : m.data.length < 2 ^ 31) :
    (m.header.bytes m.gap).getD 0 0 = UInt8.ofInt m.type ∧
      (swap32 (UInt32.ofNat (load (((m.header.bytes m.gap).drop 1).take 4)))).toNat =
        m.data.length ∧
      swap32 (UInt32.ofNat (load (((m.header.bytes m.gap).drop 5).take 4))) = crc32 m.data := by
  obtain ⟨hlength, hcrc⟩ := words_bytes m.header m.gap []
  rw [List.append_nil] at hlength hcrc
  rw [hlength, hcrc, ofNat_load_store32, ofNat_load_store32]
  refine ⟨rfl, ?_, swap32_swap32 _⟩
  rw [Message.header, swap32_swap32]
  exact UInt32.toNat_ofNat_of_lt' (Nat.lt_trans hlen (by decide))

/-- With a header, the data are read once, as far as they have arrived. -/
theorem networkReceivePacket_ready (hconnected : node.connected = true)
    (hready : HeaderReady s a) (hunread : s.unread = m.wire ++ rest)
    (hbuffer : m.data.length ≤ bufferSize) (hlen : m.data.length < 2 ^ 31) :
    ∃ node' s' received, networkReceivePacket node s bufferSize a = (node', s', received) ∧
      node'.connected = true ∧ s'.unread.length < s.unread.length ∧
      if m.data.length ≤ (streamAtBody s a m.data.length).buffered.length then
        received = ⟨(UInt8.ofInt m.type).toNat, m.data⟩ ∧ s'.unread = rest
      else received = ⟨-1, []⟩ ∧ rest.length < s'.unread.length := by
  have hpeek := peek_ready hready hunread
  obtain ⟨hheader, hbody⟩ := recv_header_ready hready hunread
  obtain ⟨htype, hdataLen, hcrc⟩ := m.header_words hlen
  have htwelve := PacketHeader.length_bytes m.header m.gap
  have hint := bmod_of_lt hlen
  rw [networkReceivePacket, hconnected, Bool.not_true, if_neg Bool.false_ne_true]
  dsimp only
  rw [if_neg hready.1, hpeek, if_neg (by omega), htype, hdataLen, hcrc, if_neg (by omega)]
  have hstream : ((s.deliver a.select).peek a.peek 12).2 = streamAtPeek s a := rfl
  rw [hstream, hheader, if_neg (by omega), hint]
  rcases Nat.lt_or_ge (streamAtBody s a m.data.length).buffered.length m.data.length with
    hshort | hwhole
  · obtain ⟨hread, hleft⟩ := Stream.recv_of_lt hbody rfl hshort
    have hcut : (((streamAtPeek s a).recv a.header 12).2.recv a.body m.data.length).1.length <
        m.data.length := hread ▸ hshort
    have hmismatch : ((((streamAtPeek s a).recv a.header 12).2.recv a.body
        m.data.length).1.length : ℤ) ≠ m.data.length := by
      omega
    have hcount := congrArg List.length hleft
    rw [List.length_append, List.length_drop, ← hread] at hcount
    rw [if_pos hmismatch]
    refine ⟨_, _, _, rfl, rfl, ?_, ?_⟩
    · rw [hcount, hunread, List.length_append, Message.length_wire]
      omega
    · rw [if_neg (Nat.not_le.mpr hshort)]
      refine ⟨rfl, ?_⟩
      rw [hcount]
      omega
  · obtain ⟨hread, hleft⟩ := Stream.recv_of_le hbody rfl hwhole
    rw [hread, if_neg (not_not.mpr rfl), if_neg (not_not.mpr rfl)]
    refine ⟨_, _, _, rfl, rfl, ?_, ?_⟩
    · rw [hleft, hunread, List.length_append, Message.length_wire]
      omega
    · rw [if_pos hwhole]
      exact ⟨rfl, hleft⟩

end Call

/-! ## The law along a run -/

section Law

variable {sent : List Message} {bufferSize : ℕ} {r : Receiver} {a : Arrivals}

/-- What has been returned says where the stream is. -/
theorem Delivered.at_length (h : Delivered sent r) :
    r.received = (sent.take r.received.length).map Message.expected ∧
      r.stream.unread = (sent.drop r.received.length).flatMap Message.wire := by
  obtain ⟨k, hreceived, hunread⟩ := h
  have hlength := congrArg List.length hreceived
  rw [List.length_map, List.length_take] at hlength
  rcases Nat.le_total k sent.length with hk | hk
  · rw [Nat.min_eq_left hk] at hlength
    rw [hlength]
    exact ⟨hreceived, hunread⟩
  · rw [Nat.min_eq_right hk] at hlength
    rw [hlength, List.take_length, List.drop_length]
    rw [List.take_of_length_le hk] at hreceived
    rw [List.drop_eq_nil_of_le hk] at hunread
    exact ⟨hreceived, hunread⟩

/-- A call that takes no header keeps the law. -/
theorem step_idle (hconnected : r.node.connected = true) (hready : ¬HeaderReady r.stream a)
    (h : Delivered sent r) :
    Delivered sent (r.step bufferSize a) ∧ (r.step bufferSize a).node.connected = true := by
  obtain ⟨k, hreceived, hunread⟩ := h
  obtain ⟨s', hcall, hsame⟩ := @networkReceivePacket_idle _ _ bufferSize _ hconnected hready
  rw [Receiver.step, hcall]
  exact ⟨⟨k, hreceived, hsame.trans hunread⟩, hconnected⟩

/-- Without bytes to come there is no header. -/
theorem exists_message (hready : HeaderReady r.stream a) {k : ℕ}
    (hunread : r.stream.unread = (sent.drop k).flatMap Message.wire) :
    ∃ m, sent[k]? = some m ∧ sent.drop k = m :: sent.drop (k + 1) := by
  rcases Nat.lt_or_ge k sent.length with hk | hk
  · exact ⟨sent[k], List.getElem?_eq_getElem hk, List.drop_eq_getElem_cons hk⟩
  · have hempty : (r.stream.deliver a.select).unread = [] := by
      rw [Stream.unread_deliver, hunread, List.drop_eq_nil_of_le hk]
      rfl
    exact absurd (List.append_eq_nil_iff.mp hempty).1 hready.1

/-- After a call that takes a header, the law holds for the message or not at all. -/
theorem delivered_taken_iff {m : Message} {node : Node} {s : Stream} {received : Received}
    (h : Delivered sent r) (hm : sent[r.received.length]? = some m)
    (hshorter : s.unread.length < r.stream.unread.length) :
    Delivered sent
        ⟨node, s, if received.result = 0 then r.received else r.received ++ [received]⟩ ↔
      received = m.expected ∧ m.type ≠ 0 ∧
        s.unread = (sent.drop (r.received.length + 1)).flatMap Message.wire := by
  obtain ⟨hreceived, hunread⟩ := h.at_length
  have htake : sent.take (r.received.length + 1) = sent.take r.received.length ++ [m] := by
    rw [List.take_add_one, hm]
    rfl
  constructor
  · intro hnext
    have hlaw := hnext.at_length
    split_ifs at hlaw with hzero
    · rw [hunread, ← hlaw.2] at hshorter
      exact absurd hshorter (Nat.lt_irrefl _)
    · simp only [List.length_append, List.length_singleton] at hlaw
      rw [htake, List.map_append, ← hreceived, List.append_right_inj] at hlaw
      have hsame : received = m.expected := List.singleton_inj.mp hlaw.1
      refine ⟨hsame, ?_, hlaw.2⟩
      rw [hsame] at hzero
      exact hzero
  · rintro ⟨rfl, hne, hleft⟩
    refine ⟨r.received.length + 1, ?_, hleft⟩
    have hzero : ¬m.expected.result = 0 := hne
    dsimp only
    rw [if_neg hzero, htake, List.map_append, ← hreceived]
    rfl

theorem toNat_ofInt_eq_iff (type : ℤ) :
    ((UInt8.ofInt type).toNat : ℤ) = type ∧ type ≠ 0 ↔ 1 ≤ type ∧ type ≤ 255 := by
  have hbyte : (UInt8.ofInt type).toNat = (type % 2 ^ 8).toNat := by
    rw [UInt8.ofInt]
    apply UInt8.toNat_ofNat_of_lt'
    have hlt : (type % 2 ^ 8).toNat < 256 := by omega
    exact hlt
  rw [hbyte]
  omega

theorem delivered_step_iff
    (hsent : ∀ m ∈ sent, m.data.length ≤ bufferSize ∧ m.data.length < 2 ^ 31)
    (hconnected : r.node.connected = true) (h : Delivered sent r) :
    Delivered sent (r.step bufferSize a) ↔ Whole sent r a := by
  by_cases hready : HeaderReady r.stream a
  · obtain ⟨m, hm, hdrop⟩ := exists_message hready h.at_length.2
    obtain ⟨hbuffer, hlen⟩ := hsent m (List.mem_of_getElem? hm)
    have hwire : r.stream.unread =
        m.wire ++ (sent.drop (r.received.length + 1)).flatMap Message.wire := by
      rw [h.at_length.2, hdrop, List.flatMap_cons]
    obtain ⟨node', s', received, hcall, -, hshorter, houtcome⟩ :=
      networkReceivePacket_ready hconnected hready hwire hbuffer hlen
    have hwhole : Whole sent r a ↔
        m.data.length ≤ (streamAtBody r.stream a m.data.length).buffered.length ∧
          1 ≤ m.type ∧ m.type ≤ 255 := by
      constructor
      · intro hall
        exact hall hready m hm
      · intro hnext _ m' hm'
        rw [hm, Option.some_inj] at hm'
        rwa [← hm']
    rw [Receiver.step, hcall, hwhole]
    dsimp only
    rw [delivered_taken_iff h hm hshorter]
    by_cases hbody : m.data.length ≤ (streamAtBody r.stream a m.data.length).buffered.length
    · rw [if_pos hbody] at houtcome
      obtain ⟨rfl, hleft⟩ := houtcome
      rw [and_iff_right hbody, ← toNat_ofInt_eq_iff, Message.expected, Received.mk.injEq]
      constructor
      · rintro ⟨⟨htype, -⟩, hne, -⟩
        exact ⟨htype, hne⟩
      · rintro ⟨htype, hne⟩
        exact ⟨⟨htype, rfl⟩, hne, hleft⟩
    · rw [if_neg hbody] at houtcome
      obtain ⟨-, hlonger⟩ := houtcome
      refine iff_of_false ?_ fun hnext => hbody hnext.1
      rintro ⟨-, -, hleft⟩
      rw [hleft] at hlonger
      exact Nat.lt_irrefl _ hlonger
  · exact iff_of_true (step_idle hconnected hready h).1 fun hreadyᵢ => absurd hreadyᵢ hready

theorem networkReceivePacket_connected (node : Node) (s : Stream) (bufferSize : ℕ)
    (a : Arrivals) :
    (networkReceivePacket node s bufferSize a).1.connected = node.connected := by
  rw [networkReceivePacket]
  split_ifs
  · rfl
  dsimp only
  split_ifs
  · rfl
  · rfl
  · rfl
  · rfl
  · rfl
  · rfl
  · rfl

/-- What is on its way are the bytes of the messages. -/
theorem transmit_eq {sender : Node} (hsender : sender.connected = true) :
    transmit sender sent = sent.flatMap Message.wire := by
  induction sent generalizing sender with
  | nil => rfl
  | cons m sent ih =>
    have hsent : (networkSendPacket sender m 12 m.data.length).2.1 = m.wire ∧
        (networkSendPacket sender m 12 m.data.length).1.connected = true := by
      rw [networkSendPacket, hsender, Bool.not_true, if_neg Bool.false_ne_true,
        if_neg (not_not.mpr rfl)]
      dsimp only
      rw [Int.toNat_natCast, List.take_length]
      split_ifs
      · exact ⟨rfl, rfl⟩
      · exact ⟨rfl, rfl⟩
    rw [transmit, hsent.1, ih hsent.2, List.flatMap_cons]

end Law

/-- The law holds in every state of a run exactly when no call of it finds a part of a packet. -/
theorem delivered_iff {sender node : Node} (hsender : sender.connected = true)
    (hnode : node.connected = true) {bufferSize : ℕ} {sent : List Message}
    (hsent : ∀ m ∈ sent, m.data.length ≤ bufferSize ∧ m.data.length < 2 ^ 31)
    (calls : List Arrivals) :
    (∀ n, Delivered sent
        (run (Receiver.step bufferSize) (Receiver.start sender node sent) (calls.take n))) ↔
      Along (Receiver.step bufferSize) (Whole sent) (Receiver.start sender node sent) calls := by
  have hstart : Delivered sent (Receiver.start sender node sent) := ⟨0, rfl, transmit_eq hsender⟩
  rw [forall_run_take_iff, and_iff_right hstart]
  apply along_congr_of_invariant fun r => Delivered sent r ∧ r.node.connected = true
  · rintro r a ⟨h, hconnected⟩
    exact delivered_step_iff hsent hconnected h
  · rintro r a ⟨-, hconnected⟩ hnext
    exact ⟨hnext, (networkReceivePacket_connected _ _ _ _).trans hconnected⟩
  · exact ⟨hstart, hnode⟩

/-! ## A body in two parts -/

def connectedNode : Node := ⟨true, 0, 0, 0, 0, 0, 0⟩

/-- A message of two bytes. -/
def twoBytes : Message := ⟨2, [1, 2], 0, 0, 0⟩

theorem twoBytes_small :
    ∀ m ∈ [twoBytes], m.data.length ≤ 65536 ∧ m.data.length < 2 ^ 31 := by
  intro m hm
  rw [List.mem_singleton.mp hm]
  decide

theorem twoBytes_start : Delivered [twoBytes] (.start connectedNode connectedNode [twoBytes]) :=
  ⟨0, rfl, transmit_eq rfl⟩

/-- The header and the data, one after the other. -/
theorem delivered_iff_twoBytes : Delivered [twoBytes]
    (run (Receiver.step 65536) (.start connectedNode connectedNode [twoBytes])
      [⟨12, 0, 0, 2, 0⟩]) := by
  refine (delivered_iff rfl rfl twoBytes_small [⟨12, 0, 0, 2, 0⟩]).mpr ⟨?_, trivial⟩ 1
  intro _ m hm
  obtain rfl := Option.some.inj hm
  decide +kernel

/-- The first byte of the data arrives with the header, and the second one later. -/
theorem twoBytes_not_delivered : ¬Delivered [twoBytes]
    (Receiver.step 65536 (.start connectedNode connectedNode [twoBytes]) ⟨13, 0, 0, 0, 0⟩) := by
  have hready : HeaderReady (Receiver.start connectedNode connectedNode [twoBytes]).stream
      ⟨13, 0, 0, 0, 0⟩ := by
    rw [HeaderReady]
    decide +kernel
  rw [delivered_step_iff twoBytes_small rfl twoBytes_start]
  intro hwhole
  have hbody := (hwhole hready twoBytes rfl).1
  revert hbody
  decide +kernel

end Blackstone.SecuritySystem
