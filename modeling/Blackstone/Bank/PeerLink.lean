import Blackstone.Bank.Ternary
import Blackstone.Library.Pieces

/-!
# The encrypted link between peers

`sendTo` and `handlePeer` of `p2p_network.cpp` over `encryptGCM` and `decryptGCM` of
`aes256.cpp`. The receiver takes every result of `recv` for one message, but nothing in the
stream marks where a message ends. With a block cipher that can be undone, the messages are
delivered exactly when the stream is cut at the packets, up to digits of a first byte that the
tag does not miss (`handlePeer_eq_iff`).
-/

namespace Blackstone.Bank

open Pieces

/-! ## The cipher -/

/-- An `AdvancedAES256` object with a key: `encryptECB` keeps the length of its argument. -/
structure AdvancedAES256 where
  encryptECB : Str → Str
  decryptECB : Str → Str
  length_encryptECB : ∀ plain, (encryptECB plain).length = plain.length

/-- The tag for an initialisation vector and a ciphertext. -/
def gcmTag (iv cipher : Str) : Str := (sha1 (iv ++ cipher)).take 16

/-- `AdvancedAES256::encryptGCM`, with the random bytes it draws. -/
def AdvancedAES256.encryptGCM (aes : AdvancedAES256) (iv plain : Str) : Str :=
  iv ++ aes.encryptECB plain ++ gcmTag iv (aes.encryptECB plain)

/-- The initialisation vector of a packet. -/
def packetIv (packet : Str) : Str := packet.take 12

/-- The ciphertext of a packet. -/
def packetBody (packet : Str) : Str := (packet.drop 12).take (packet.length - 28)

/-- The tag of a packet. -/
def packetTag (packet : Str) : Str := packet.drop (packet.length - 16)

/-- `AdvancedAES256::decryptGCM`. -/
def AdvancedAES256.decryptGCM (aes : AdvancedAES256) (packet : Str) : Str :=
  if packet.length < 28 then []
  else if packetTag packet ≠ gcmTag (packetIv packet) (packetBody packet) then []
  else aes.decryptECB (packetBody packet)

/-! ## The link -/

/-- `P2PNetworkCore::sendTo`: what is sent on the socket. -/
def sendTo (aes : AdvancedAES256) (iv msg : Str) : Str := encodeBinary (aes.encryptGCM iv msg)

/-- A `char` buffer read as a string, up to the first zero. -/
def cString (buffer : Str) : Str := buffer.takeWhile (· ≠ 0)

/-- The loop of `P2PNetworkCore::handlePeer`: the messages that it passes to the handler,
from the results of `recv`. -/
def handlePeer (aes : AdvancedAES256) (received : List Str) : List Str :=
  nonempty (received.map (fun buffer => aes.decryptGCM (decodeTernary (cString buffer))))

/-- A message on the link, with its initialisation vector. -/
structure SentMessage where
  iv : Str
  msg : Str
  length_iv : iv.length = 12
  nonempty : msg ≠ []

/-- The packet of a message. -/
def SentMessage.packet (aes : AdvancedAES256) (m : SentMessage) : Str := aes.encryptGCM m.iv m.msg

/-- The bytes of a list of messages on one connection. -/
def stream (aes : AdvancedAES256) (sent : List SentMessage) : Str :=
  sent.flatMap (fun m => sendTo aes m.iv m.msg)

/-- Results of `recv` for a stream: each has at least one byte and fits into the buffer. -/
structure Segments (bytes : Str) (received : List Str) : Prop where
  flatten : received.flatten = bytes
  nonempty : ∀ buffer ∈ received, buffer ≠ []
  fits : ∀ buffer ∈ received, buffer.length ≤ 65535

/-- Reads as a packet: it is the packet, or it differs in the first byte and has the same tag. -/
def ReadsAs (d packet : Str) : Prop :=
  AlikeAfterFirst d packet ∧
    gcmTag (packetIv d) (packetBody packet) = gcmTag (packetIv packet) (packetBody packet)

/-! ## Packets -/

theorem length_gcmTag (iv cipher : Str) : (gcmTag iv cipher).length = 16 := by
  rw [gcmTag, List.length_take, length_sha1]
  rfl

/-- A packet consists of twelve bytes, a ciphertext and a tag. -/
theorem packet_parts {iv body tag : Str} (hiv : iv.length = 12) (htag : tag.length = 16) :
    packetIv (iv ++ body ++ tag) = iv ∧ packetBody (iv ++ body ++ tag) = body ∧
      packetTag (iv ++ body ++ tag) = tag := by
  have hlength : (iv ++ body ++ tag).length = 28 + body.length := by
    rw [List.length_append, List.length_append, hiv, htag]
    omega
  refine ⟨?_, ?_, ?_⟩
  · rw [packetIv, List.append_assoc, List.take_left' hiv]
  · rw [packetBody, hlength, List.append_assoc, List.drop_left' hiv, Nat.add_sub_cancel_left,
      List.take_left' rfl]
  · rw [packetTag, hlength, List.drop_left']
    rw [List.length_append, hiv]
    omega

theorem packet_parts_encryptGCM (aes : AdvancedAES256) {iv : Str} (hiv : iv.length = 12)
    (plain : Str) :
    packetIv (aes.encryptGCM iv plain) = iv ∧
      packetBody (aes.encryptGCM iv plain) = aes.encryptECB plain ∧
      packetTag (aes.encryptGCM iv plain) = gcmTag iv (aes.encryptECB plain) :=
  packet_parts hiv (length_gcmTag _ _)

theorem length_encryptGCM (aes : AdvancedAES256) {iv : Str} (hiv : iv.length = 12)
    (plain : Str) : (aes.encryptGCM iv plain).length = 28 + plain.length := by
  rw [AdvancedAES256.encryptGCM, List.length_append, List.length_append, hiv, length_gcmTag,
    aes.length_encryptECB]
  omega

/-- What `decryptGCM` does with a packet that has a valid tag. -/
theorem decryptGCM_of_tag (aes : AdvancedAES256) {d : Str} (hlength : 28 ≤ d.length)
    (htag : packetTag d = gcmTag (packetIv d) (packetBody d)) :
    aes.decryptGCM d = aes.decryptECB (packetBody d) := by
  rw [AdvancedAES256.decryptGCM, if_neg (by omega), if_neg (not_not.mpr htag)]

/-- Only packets with a valid tag yield a message. -/
theorem tag_of_decryptGCM_ne {aes : AdvancedAES256} {d : Str} (h : aes.decryptGCM d ≠ []) :
    28 ≤ d.length ∧ packetTag d = gcmTag (packetIv d) (packetBody d) := by
  rw [AdvancedAES256.decryptGCM] at h
  split at h
  · exact absurd rfl h
  · rename_i hlength
    split at h
    · exact absurd rfl h
    · rename_i htag
      exact ⟨by omega, not_not.mp htag⟩

@[simp] theorem decryptGCM_nil (aes : AdvancedAES256) : aes.decryptGCM [] = [] := rfl

/-- Decrypting a packet undoes what was done to its message. -/
theorem decryptGCM_encryptGCM (aes : AdvancedAES256) {iv : Str} (hiv : iv.length = 12)
    (plain : Str) :
    aes.decryptGCM (aes.encryptGCM iv plain) = aes.decryptECB (aes.encryptECB plain) := by
  obtain ⟨hpiv, hbody, htag⟩ := packet_parts_encryptGCM aes hiv plain
  have hlength := length_encryptGCM aes hiv plain
  rw [decryptGCM_of_tag aes (by omega) (by rw [htag, hpiv, hbody]), hbody]

theorem decryptECB_encryptECB {aes : AdvancedAES256}
    (haes : ∀ iv plain, iv.length = 12 → aes.decryptGCM (aes.encryptGCM iv plain) = plain)
    (plain : Str) : aes.decryptECB (aes.encryptECB plain) = plain := by
  have hiv : (List.replicate 12 (0 : UInt8)).length = 12 := rfl
  rw [← decryptGCM_encryptGCM aes hiv, haes _ plain hiv]

/-- Such a cipher is a bijection: a ciphertext is determined by what it decrypts to. -/
theorem encryptECB_decryptECB {aes : AdvancedAES256}
    (haes : ∀ iv plain, iv.length = 12 → aes.decryptGCM (aes.encryptGCM iv plain) = plain)
    (cipher : Str) : aes.encryptECB (aes.decryptECB cipher) = cipher := by
  have hbytes : Finite UInt8 :=
    Finite.of_injective UInt8.toFin (fun _ _ h => UInt8.toFin_inj.mp h)
  exact rightInverse_of_leftInverse aes.length_encryptECB (decryptECB_encryptECB haes) cipher

/-! ## The stream -/

/-- The packets of a list of messages. -/
def packets (aes : AdvancedAES256) (sent : List SentMessage) : List Str :=
  sent.map (SentMessage.packet aes)

theorem stream_eq (aes : AdvancedAES256) (sent : List SentMessage) :
    stream aes sent = encodeBinary (packets aes sent).flatten := by
  induction sent with
  | nil => rfl
  | cons m sent ih =>
    rw [packets, List.map_cons, List.flatten_cons, encodeBinary_append, ← packets, ← ih]
    rfl

theorem ne_zero_of_mem_encodeBinary {data : Str} {b : UInt8} (h : b ∈ encodeBinary data) :
    b ≠ 0 := by
  obtain ⟨c, _, hb⟩ := List.mem_flatMap.mp h
  rcases List.mem_append.mp hb with hdigit | hbar
  · obtain ⟨x, hx, rfl⟩ := List.mem_map.mp hdigit
    have hdigits : ∀ i : Fin 3, UInt8.ofNat (48 + i) ≠ 0 := by decide
    exact hdigits ⟨x, lt_three_of_mem_toTernary hx⟩
  · rw [List.mem_singleton.mp hbar]
    decide

/-- The buffers hold no zero byte. -/
theorem cString_segment {aes : AdvancedAES256} {sent : List SentMessage} {received : List Str}
    (h : Segments (stream aes sent) received) {buffer : Str} (hbuffer : buffer ∈ received) :
    cString buffer = buffer := by
  apply List.takeWhile_eq_self_iff.mpr
  intro b hb
  have hmem : b ∈ stream aes sent := by
    rw [← h.flatten]
    exact List.mem_flatten.mpr ⟨buffer, hbuffer, hb⟩
  rw [stream_eq] at hmem
  exact decide_eq_true (ne_zero_of_mem_encodeBinary hmem)

theorem handlePeer_eq {aes : AdvancedAES256} {sent : List SentMessage} {received : List Str}
    (h : Segments (stream aes sent) received) :
    handlePeer aes received =
      nonempty ((nonempty (received.map decodeTernary)).map aes.decryptGCM) := by
  rw [← nonempty_map (decryptGCM_nil aes), handlePeer, List.map_map]
  congr 1
  apply List.map_congr_left
  intro buffer hbuffer
  rw [cString_segment h hbuffer]
  rfl

/-! ## Delivery -/

theorem alike_parts {d packet : Str} (h : AlikeAfterFirst d packet) (hlength : 28 ≤ packet.length) :
    packetBody d = packetBody packet ∧ packetTag d = packetTag packet := by
  have hdrop : ∀ n, d.drop (n + 1) = packet.drop (n + 1) := by
    intro n
    rw [← List.drop_tail, ← List.drop_tail, h.1]
  obtain ⟨n, hn⟩ : ∃ n, packet.length - 16 = n + 1 := ⟨packet.length - 17, by omega⟩
  refine ⟨?_, ?_⟩
  · rw [packetBody, packetBody, hdrop 11, h.2]
  · rw [packetTag, packetTag, h.2, hn, hdrop n]

/-- What reads as a packet decrypts to its message. -/
theorem decryptGCM_of_readsAs {aes : AdvancedAES256}
    (haes : ∀ iv plain, iv.length = 12 → aes.decryptGCM (aes.encryptGCM iv plain) = plain)
    {d : Str} {m : SentMessage} (h : ReadsAs d (m.packet aes)) : aes.decryptGCM d = m.msg := by
  obtain ⟨hpiv, hpbody, hptag⟩ := packet_parts_encryptGCM aes m.length_iv m.msg
  have hlength : 28 ≤ (m.packet aes).length := by
    rw [SentMessage.packet, length_encryptGCM aes m.length_iv]
    omega
  obtain ⟨hbody, htag⟩ := alike_parts h.1 hlength
  have hvalid : packetTag d = gcmTag (packetIv d) (packetBody d) := by
    rw [htag, hbody, h.2, SentMessage.packet, hptag, hpiv, hpbody]
  rw [decryptGCM_of_tag aes (by rw [h.1.2]; exact hlength) hvalid, hbody, SentMessage.packet,
    hpbody, decryptECB_encryptECB haes]

/-- A decoded text that decrypts to a message has the length of its packet. -/
theorem length_of_decryptGCM {aes : AdvancedAES256}
    (haes : ∀ iv plain, iv.length = 12 → aes.decryptGCM (aes.encryptGCM iv plain) = plain)
    {d : Str} {m : SentMessage} (h : aes.decryptGCM d = m.msg) :
    d.length = (m.packet aes).length := by
  obtain ⟨hlength, htag⟩ := tag_of_decryptGCM_ne (by rw [h]; exact m.nonempty)
  rw [decryptGCM_of_tag aes hlength htag] at h
  have hbody : packetBody d = aes.encryptECB m.msg := by
    rw [← h, encryptECB_decryptECB haes]
  have hbodyLength := congrArg List.length hbody
  rw [packetBody, List.length_take, List.length_drop, aes.length_encryptECB] at hbodyLength
  rw [SentMessage.packet, length_encryptGCM aes m.length_iv]
  omega

/-- When a decoded text differs from a packet in the first byte only and decrypts to its
message, the tag is the same. -/
theorem readsAs_of_decryptGCM {aes : AdvancedAES256} {d : Str} {m : SentMessage}
    (halike : AlikeAfterFirst d (m.packet aes)) (h : aes.decryptGCM d = m.msg) :
    ReadsAs d (m.packet aes) := by
  obtain ⟨hpiv, hpbody, hptag⟩ := packet_parts_encryptGCM aes m.length_iv m.msg
  obtain ⟨hlength, htag⟩ := tag_of_decryptGCM_ne (by rw [h]; exact m.nonempty)
  rw [halike.2] at hlength
  obtain ⟨hbody, htagSame⟩ := alike_parts halike hlength
  refine ⟨halike, ?_⟩
  rw [← hbody, ← htag, htagSame, hbody, SentMessage.packet, hptag, hpiv, hpbody]

theorem map_length_eq {ds parts : List Str} (h : List.Forall₂ AlikeAfterFirst ds parts) :
    ds.map List.length = parts.map List.length := by
  rw [← List.forall₂_eq_eq_eq, List.forall₂_map_left_iff, List.forall₂_map_right_iff]
  exact h.imp (fun _ _ halike => halike.2)

theorem alike_nil_iff {d part : Str} (h : AlikeAfterFirst d part) : d = [] ↔ part = [] := by
  rw [← List.length_eq_zero_iff, h.2, List.length_eq_zero_iff]

/-- When the decoded texts that are kept have the lengths of the packets, they are all that
was decoded, and they differ from the packets in first bytes only. -/
theorem kept_alike {aes : AdvancedAES256} {sent : List SentMessage} {received : List Str}
    (hsegments : Segments (stream aes sent) received) {keep : Str → Bool}
    (hkeep : ∀ d, keep d = true → d ≠ [])
    (hlengths : ((received.map decodeTernary).filter keep).map List.length =
      (packets aes sent).map List.length) :
    nonempty (received.map decodeTernary) = (received.map decodeTernary).filter keep ∧
      List.Forall₂ AlikeAfterFirst (nonempty (received.map decodeTernary)) (packets aes sent) := by
  obtain ⟨parts, hflatten, halike⟩ := decode_pieces received []
  have hstream : parts.flatten = (packets aes sent).flatten := by
    rw [hflatten, hsegments.flatten, stream_eq]
    exact decodeTernary_encodeBinary _
  have hall : nonempty (received.map decodeTernary) = (received.map decodeTernary).filter keep := by
    apply filter_eq_of_length_le hkeep
    rw [List.length_flatten, List.length_flatten, hlengths, map_length_eq halike,
      ← List.length_flatten, ← List.length_flatten, hstream]
  have halike' := forall₂_nonempty (fun _ _ => alike_nil_iff) halike
  have hparts : nonempty parts = packets aes sent := by
    rw [List.eq_iff_flatten_eq, flatten_nonempty, hstream, ← map_length_eq halike', hall, hlengths]
    exact ⟨rfl, rfl⟩
  rw [hparts] at halike'
  exact ⟨hall, halike'⟩

/-- When the results of `recv` decode to what reads as the packets, the messages are
delivered. -/
theorem handlePeer_of_readsAs {aes : AdvancedAES256}
    (haes : ∀ iv plain, iv.length = 12 → aes.decryptGCM (aes.encryptGCM iv plain) = plain)
    {sent : List SentMessage} {received : List Str}
    (hsegments : Segments (stream aes sent) received)
    (hreads : List.Forall₂ (fun d m => ReadsAs d (SentMessage.packet aes m))
      (nonempty (received.map decodeTernary)) sent) :
    handlePeer aes received = sent.map SentMessage.msg := by
  have hmap : (nonempty (received.map decodeTernary)).map aes.decryptGCM =
      sent.map SentMessage.msg := by
    rw [← List.forall₂_eq_eq_eq, List.forall₂_map_left_iff, List.forall₂_map_right_iff]
    exact hreads.imp (fun d m h => decryptGCM_of_readsAs haes h)
  rw [handlePeer_eq hsegments, hmap]
  apply nonempty_eq_self
  intro msg hmsg
  obtain ⟨m, _, rfl⟩ := List.mem_map.mp hmsg
  exact m.nonempty

/-- When the messages are delivered, the results of `recv` decode to what reads as the
packets. -/
theorem readsAs_of_handlePeer {aes : AdvancedAES256}
    (haes : ∀ iv plain, iv.length = 12 → aes.decryptGCM (aes.encryptGCM iv plain) = plain)
    {sent : List SentMessage} {received : List Str}
    (hsegments : Segments (stream aes sent) received)
    (hdelivered : handlePeer aes received = sent.map SentMessage.msg) :
    List.Forall₂ (fun d m => ReadsAs d (SentMessage.packet aes m))
      (nonempty (received.map decodeTernary)) sent := by
  -- the decoded texts that decrypt to a message
  obtain ⟨keep, hkeep⟩ : ∃ keep : Str → Bool, keep = fun d => decide (aes.decryptGCM d ≠ []) :=
    ⟨_, rfl⟩
  have hopened : List.Forall₂ (fun d m => aes.decryptGCM d = SentMessage.msg m)
      ((received.map decodeTernary).filter keep) sent := by
    rw [handlePeer_eq hsegments, ← nonempty_map (decryptGCM_nil aes), Pieces.nonempty,
      List.filter_map, ← List.forall₂_eq_eq_eq, List.forall₂_map_left_iff,
      List.forall₂_map_right_iff] at hdelivered
    rw [hkeep]
    exact hdelivered
  have hlengths : ((received.map decodeTernary).filter keep).map List.length =
      (packets aes sent).map List.length := by
    rw [packets, List.map_map, ← List.forall₂_eq_eq_eq, List.forall₂_map_left_iff,
      List.forall₂_map_right_iff]
    exact hopened.imp (fun d m h => length_of_decryptGCM haes h)
  have hne : ∀ d, keep d = true → d ≠ [] := by
    rintro d hd rfl
    rw [hkeep] at hd
    exact of_decide_eq_true hd rfl
  obtain ⟨hall, halike⟩ := kept_alike hsegments hne hlengths
  rw [packets, List.forall₂_map_right_iff, hall] at halike
  rw [hall]
  exact halike.mp (fun d m hfirst h => readsAs_of_decryptGCM hfirst h) hopened

/-! ## Cuts -/

/-- The results of `recv` that hold a whole byte. -/
def wholeBytes (received : List Str) : List Str := received.filter (bar ∈ ·)

/-- A result of `recv` is cut for a message: it holds as many bars as the packet of the message
has bytes, and the tag does not tell the first byte from what is left of its digits. -/
structure CutFor (aes : AdvancedAES256) (buffer : Str) (m : SentMessage) : Prop where
  bars : buffer.count bar = 28 + m.msg.length
  tag : gcmTag (firstByte buffer :: m.iv.tail) (aes.encryptECB m.msg) =
    gcmTag m.iv (aes.encryptECB m.msg)

theorem nonempty_decode (received : List Str) :
    nonempty (received.map decodeTernary) = (wholeBytes received).map decodeTernary := by
  rw [Pieces.nonempty, List.filter_map, wholeBytes]
  congr 1
  apply List.filter_congr
  intro buffer _
  apply decide_eq_decide.mpr
  show decodeLoop [] buffer ≠ [] ↔ bar ∈ buffer
  rw [← List.count_pos_iff, ← length_decodeLoop [], List.length_pos_iff]

/-- When the decoded text differs from the packet in the first byte only, it reads as the
packet exactly when the tag is the same. -/
theorem readsAs_iff_tag {aes : AdvancedAES256} {buffer : Str} {m : SentMessage}
    (hbar : bar ∈ buffer) (halike : AlikeAfterFirst (decodeTernary buffer) (m.packet aes)) :
    ReadsAs (decodeTernary buffer) (m.packet aes) ↔
      gcmTag (firstByte buffer :: m.iv.tail) (aes.encryptECB m.msg) =
        gcmTag m.iv (aes.encryptECB m.msg) := by
  obtain ⟨hpiv, hpbody, _⟩ := packet_parts_encryptGCM aes m.length_iv m.msg
  obtain ⟨rest, hrest⟩ := decodeLoop_head [] hbar
  have hiv : packetIv (decodeTernary buffer) = firstByte buffer :: m.iv.tail := by
    have htail : rest.take 11 = m.iv.tail := by
      have hpacket := halike.1
      rw [decodeTernary, hrest, List.tail_cons] at hpacket
      rw [hpacket, ← hpiv, packetIv, List.tail_take_eq_take_tail]
      rfl
    rw [decodeTernary, hrest, packetIv, List.take_succ_cons, htail]
    rfl
  rw [ReadsAs, and_iff_right halike, hiv, SentMessage.packet, hpbody, hpiv]

/-- When the results of `recv` are cut for the messages, they decode to what reads as the
packets. -/
theorem readsAs_of_cutFor {aes : AdvancedAES256} {sent : List SentMessage} {received : List Str}
    (hsegments : Segments (stream aes sent) received)
    (hcut : List.Forall₂ (CutFor aes) (wholeBytes received) sent) :
    List.Forall₂ (fun d m => ReadsAs d (SentMessage.packet aes m))
      (nonempty (received.map decodeTernary)) sent := by
  have hlengths : (nonempty (received.map decodeTernary)).map List.length =
      (packets aes sent).map List.length := by
    rw [nonempty_decode, packets, List.map_map, List.map_map, ← List.forall₂_eq_eq_eq,
      List.forall₂_map_left_iff, List.forall₂_map_right_iff]
    apply hcut.imp
    intro buffer m h
    show (decodeLoop [] buffer).length = (aes.encryptGCM m.iv m.msg).length
    rw [length_decodeLoop, h.bars, length_encryptGCM aes m.length_iv]
  obtain ⟨_, halike⟩ := kept_alike hsegments (fun d hd => of_decide_eq_true hd) hlengths
  rw [packets, List.forall₂_map_right_iff, nonempty_decode, List.forall₂_map_left_iff] at halike
  rw [nonempty_decode, List.forall₂_map_left_iff]
  refine List.Forall₂.mp ?_ halike hcut
  intro buffer m h hcut
  have hbar : bar ∈ buffer := by
    rw [← List.count_pos_iff, hcut.bars]
    omega
  exact (readsAs_iff_tag hbar h).mpr hcut.tag

/-- When the results of `recv` decode to what reads as the packets, they are cut for the
messages. -/
theorem cutFor_of_readsAs {aes : AdvancedAES256} {sent : List SentMessage} {received : List Str}
    (hreads : List.Forall₂ (fun d m => ReadsAs d (SentMessage.packet aes m))
      (nonempty (received.map decodeTernary)) sent) :
    List.Forall₂ (CutFor aes) (wholeBytes received) sent := by
  rw [nonempty_decode, List.forall₂_map_left_iff] at hreads
  apply hreads.imp
  intro buffer m h
  have hbars : buffer.count bar = 28 + m.msg.length := by
    rw [← length_decodeLoop [], ← length_encryptGCM aes m.length_iv]
    exact h.1.2
  have hbar : bar ∈ buffer := by
    rw [← List.count_pos_iff, hbars]
    omega
  exact ⟨hbars, (readsAs_iff_tag hbar h.1).mp h⟩

/-- The messages are delivered, in order, exactly when the results of `recv` that hold a
whole byte are, one by one, cut for them. -/
theorem handlePeer_eq_iff {aes : AdvancedAES256}
    (haes : ∀ iv plain, iv.length = 12 → aes.decryptGCM (aes.encryptGCM iv plain) = plain)
    {sent : List SentMessage} {received : List Str}
    (hsegments : Segments (stream aes sent) received) :
    handlePeer aes received = sent.map SentMessage.msg ↔
      List.Forall₂ (CutFor aes) (wholeBytes received) sent := by
  constructor
  · intro hdelivered
    exact cutFor_of_readsAs (readsAs_of_handlePeer haes hsegments hdelivered)
  · intro hcut
    exact handlePeer_of_readsAs haes hsegments (readsAs_of_cutFor hsegments hcut)

/-- Messages that arrive whole, one for each `recv`, are delivered. -/
theorem handlePeer_whole {aes : AdvancedAES256}
    (haes : ∀ iv plain, iv.length = 12 → aes.decryptGCM (aes.encryptGCM iv plain) = plain)
    {sent : List SentMessage} (hfits : ∀ m ∈ sent, (sendTo aes m.iv m.msg).length ≤ 65535) :
    handlePeer aes (sent.map (fun m => sendTo aes m.iv m.msg)) = sent.map SentMessage.msg := by
  have hpackets : (sent.map (fun m => sendTo aes m.iv m.msg)).map decodeTernary =
      packets aes sent := by
    rw [List.map_map]
    exact List.map_congr_left (fun m _ => decodeTernary_encodeBinary _)
  have hne : ∀ packet ∈ packets aes sent, packet ≠ [] := by
    rintro packet hpacket rfl
    obtain ⟨m, _, hm⟩ := List.mem_map.mp hpacket
    have hlength := length_encryptGCM aes m.length_iv m.msg
    rw [← SentMessage.packet, hm, List.length_nil] at hlength
    omega
  apply handlePeer_of_readsAs haes
  · refine ⟨rfl, ?_, ?_⟩
    · intro buffer hbuffer hnil
      obtain ⟨m, hm, rfl⟩ := List.mem_map.mp hbuffer
      apply hne (m.packet aes) (List.mem_map_of_mem hm)
      rw [← decodeTernary_encodeBinary (m.packet aes)]
      exact congrArg decodeTernary hnil
    · intro buffer hbuffer
      obtain ⟨m, hm, rfl⟩ := List.mem_map.mp hbuffer
      exact hfits m hm
  · rw [hpackets, nonempty_eq_self hne, packets, List.forall₂_map_left_iff, List.forall₂_same]
    exact fun m _ => ⟨⟨rfl, rfl⟩, rfl⟩

/-- A cipher that flips some bits of every byte. -/
def flipCipher : AdvancedAES256 where
  encryptECB plain := plain.map (· ^^^ 0x5A)
  decryptECB cipher := cipher.map (· ^^^ 0x5A)
  length_encryptECB _ := List.length_map _

/-- A short message. -/
def helloMessage : SentMessage where
  iv := List.replicate 12 7
  msg := ascii "hello"
  length_iv := rfl
  nonempty := by decide

theorem flipCipher_lawful (iv plain : Str) (hiv : iv.length = 12) :
    flipCipher.decryptGCM (flipCipher.encryptGCM iv plain) = plain := by
  have hflip : ∀ b : UInt8, (b ^^^ 0x5A) ^^^ 0x5A = b := by
    intro b
    rw [UInt8.xor_assoc, UInt8.xor_self, UInt8.xor_zero]
  rw [decryptGCM_encryptGCM flipCipher hiv]
  show (plain.map (· ^^^ 0x5A)).map (· ^^^ 0x5A) = plain
  rw [List.map_map]
  exact (List.map_congr_left (fun b _ => hflip b)).trans (List.map_id plain)

theorem helloStream_segments : Segments (stream flipCipher [helloMessage])
    [stream flipCipher [helloMessage]] where
  flatten := List.append_nil _
  nonempty buffer h := by
    rw [List.mem_singleton.mp h]
    decide +kernel
  fits buffer h := by
    rw [List.mem_singleton.mp h]
    decide +kernel

/-- A message that arrives in one piece. -/
theorem helloMessage_delivered_iff :
    handlePeer flipCipher [stream flipCipher [helloMessage]] =
        [helloMessage].map SentMessage.msg ↔
      List.Forall₂ (CutFor flipCipher) (wholeBytes [stream flipCipher [helloMessage]])
        [helloMessage] :=
  handlePeer_eq_iff flipCipher_lawful helloStream_segments

/-- The same message in two pieces, each of them shorter than an empty packet. -/
theorem splitMessage_lost :
    Segments (stream flipCipher [helloMessage])
        [(stream flipCipher [helloMessage]).take 80, (stream flipCipher [helloMessage]).drop 80] ∧
      handlePeer flipCipher
        [(stream flipCipher [helloMessage]).take 80, (stream flipCipher [helloMessage]).drop 80] ≠
          [helloMessage].map SentMessage.msg := by
  refine ⟨⟨?_, ?_, ?_⟩, ?_⟩
  · rw [List.flatten_cons, List.flatten_singleton, List.take_append_drop]
  · decide +kernel
  · decide +kernel
  · decide +kernel

end Blackstone.Bank
