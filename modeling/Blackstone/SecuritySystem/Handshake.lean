import Blackstone.SecuritySystem.Network

/-!
# The handshake of two nodes

`network_handshake`. A node sends 32 random bytes and then reads one packet, with whatever it has
found by then. What the key is made of is decided by the position of that packet in the stream, and
not by the handshake that the other end is in.

`handshakeKeys_eq_iff` says when the keys of two handshakes agree, in every run in which both ends
send packets of data as well. A packet of more than 256 bytes is never taken, so that no handshake
behind it succeeds (`completed_of_oversized`).
-/

namespace Blackstone.SecuritySystem

open ByteStream Runs

/-! ## The two ends -/

/-- A handshake that succeeded: the positions of the two packets, and the key. -/
structure Handshake where
  own : ℕ
  theirs : ℕ
  key : Vector UInt8 32
  deriving DecidableEq

/-- A node, the stream that it reads, and the call of `network_handshake` that it is in, with the
position of the packet that this call sent. The last three fields are the history. -/
structure LinkEnd where
  node : Node
  inbox : Stream
  attempt : Option (ℕ × Vector UInt8 32)
  sessionKey : Vector UInt8 32
  authenticated : Bool
  sent : List Message
  taken : ℕ
  completed : List Handshake

/-- The two ends of a connection. -/
abbrev Link := Bool → LinkEnd

/-- Two connected nodes before the first packet. -/
def Link.start (nodes : Bool → Node) : Link := fun p =>
  ⟨nodes p, ⟨[], []⟩, none, Vector.replicate 32 0, false, [], 0, []⟩

/-- The clock of a call of `network_send_packet`, the byte of its header that is not written, and
what its two calls of `send` return. -/
structure Writing where
  now : UInt64
  later : UInt64
  gap : UInt8
  headerSent : ℤ
  dataSent : ℤ

/-- A message of the given type. -/
def Writing.message (w : Writing) (type : ℤ) (data : List UInt8) : Message :=
  ⟨type, data, w.now, w.later, w.gap⟩

/-- `network_send_packet` at one end: what is written is on its way to the other. -/
def Link.write (link : Link) (p : Bool) (m : Message) (w : Writing) : Link :=
  let called := networkSendPacket (link p).node m w.headerSent w.dataSent
  fun q =>
    if q = p then { link p with node := called.1, sent := (link p).sent ++ [m] }
    else { link q with
      inbox := ⟨(link q).inbox.buffered, (link q).inbox.inFlight ++ called.2.1⟩ }

/-- `session_key[i] = random_data[i] ^ buffer[i]`. -/
def xorKey (random buffer : Vector UInt8 32) : Vector UInt8 32 :=
  Vector.ofFn fun i => random.get i ^^^ buffer.get i

/-- The first 32 bytes of the data of a packet. -/
def firstBytes (data : List UInt8) : Vector UInt8 32 := Vector.ofFn fun i => data.getD i.val 0

/-- `network_handshake` up to the end of its `network_send_packet`. -/
def handshakeBegin (link : Link) (p : Bool) (random : Vector UInt8 32) (w : Writing) : Link :=
  match (link p).attempt with
  | some _ => link
  | none =>
    let m := w.message 1 random.toList
    let sent := link.write p m w
    if (networkSendPacket (link p).node m w.headerSent w.dataSent).2.2 < 0 then sent
    else Function.update sent p { sent p with attempt := some ((link p).sent.length, random) }

/-- The rest of `network_handshake`. -/
def LinkEnd.finish (e : LinkEnd) (a : Arrivals) : LinkEnd :=
  match e.attempt with
  | none => e
  | some (own, random) =>
    let called := networkReceivePacket e.node e.inbox 256 a
    let read := { e with
      node := called.1
      inbox := called.2.1
      attempt := none
      taken := if called.2.1.unread.length < e.inbox.unread.length then e.taken + 1 else e.taken }
    if called.2.2.result ≠ 1 ∨ called.2.2.data.length < 32 then read
    else
      let key := xorKey random (firstBytes called.2.2.data)
      { read with
        sessionKey := key
        authenticated := true
        completed := e.completed ++ [⟨own, e.taken, key⟩] }

/-- A part of `network_handshake`, or a call of `node_send`. -/
inductive LinkEvent where
  | begin (p : Bool) (random : Vector UInt8 32) (w : Writing)
  | finish (p : Bool) (a : Arrivals)
  | send (p : Bool) (data : List UInt8) (w : Writing)

def linkStep (link : Link) : LinkEvent → Link
  | .begin p random w => handshakeBegin link p random w
  | .finish p a => Function.update link p ((link p).finish a)
  | .send p data w => link.write p (w.message 3 data) w

/-! ## One step -/

section Write

variable {link : Link} {p : Bool} {m : Message} {w : Writing}

theorem networkSendPacket_whole {node : Node} (hconnected : node.connected = true)
    (hheader : w.headerSent = 12) (hdata : w.dataSent = m.data.length) :
    (networkSendPacket node m w.headerSent w.dataSent).1.connected = true ∧
      (networkSendPacket node m w.headerSent w.dataSent).2.1 = m.wire ∧
      0 ≤ (networkSendPacket node m w.headerSent w.dataSent).2.2 := by
  unfold networkSendPacket
  rw [hconnected, hheader, hdata]
  simp only [Bool.not_true, Bool.false_eq_true, if_false, ne_eq, not_true_eq_false,
    Int.toNat_natCast, List.take_length]
  split_ifs
  · exact ⟨rfl, rfl, Int.natCast_nonneg _⟩
  · exact ⟨rfl, rfl, Int.natCast_nonneg _⟩

theorem write_self : link.write p m w p = { link p with
    node := (networkSendPacket (link p).node m w.headerSent w.dataSent).1
    sent := (link p).sent ++ [m] } := by
  simp [Link.write]

theorem write_other : link.write p m w (!p) = { link !p with
    inbox := ⟨(link !p).inbox.buffered, (link !p).inbox.inFlight ++
      (networkSendPacket (link p).node m w.headerSent w.dataSent).2.1⟩ } := by
  simp [Link.write]

end Write

/-- A header that announces more than the buffer holds is left in the stream. -/
theorem networkReceivePacket_large {node : Node} {s : Stream} {bufferSize : ℕ} {a : Arrivals}
    {m : Message} {rest : List UInt8} (hconnected : node.connected = true)
    (hready : HeaderReady s a) (hunread : s.unread = m.wire ++ rest)
    (hlarge : bufferSize < m.data.length) (hlen : m.data.length < 2 ^ 31) :
    ∃ s', networkReceivePacket node s bufferSize a = (node, s', ⟨-1, []⟩) ∧
      s'.unread = s.unread := by
  have hpeek := peek_ready hready hunread
  obtain ⟨-, hdataLen, -⟩ := m.header_words hlen
  have htwelve := PacketHeader.length_bytes m.header m.gap
  unfold networkReceivePacket
  rw [hconnected, Bool.not_true, if_neg Bool.false_ne_true]
  dsimp only
  rw [if_neg hready.1, hpeek, if_neg (by omega), hdataLen, if_pos hlarge]
  refine ⟨_, rfl, ?_⟩
  rw [Stream.peek, Stream.unread_await, Stream.unread_deliver]

theorem firstBytes_toList (random : Vector UInt8 32) : firstBytes random.toList = random := by
  ext i hi
  simp [firstBytes]

theorem getElem?_append_of_some {α : Type} {xs : List α} {i : ℕ} {x : α}
    (h : xs[i]? = some x) (ys : List α) : (xs ++ ys)[i]? = some x := by
  obtain ⟨hi, -⟩ := List.getElem?_eq_some_iff.mp h
  rw [List.getElem?_append_left hi, h]

/-- The packets at the positions of a handshake, and the key that is made of them. -/
structure Paired (sent peer : List Message) (h : Handshake) (own theirs : Message) : Prop where
  ownAt : sent[h.own]? = some own
  theirsAt : peer[h.theirs]? = some theirs
  types : own.type = 1 ∧ theirs.type = 1
  key : h.key = xorKey (firstBytes own.data) (firstBytes theirs.data)

/-- What the other end has sent and this one has not taken is what is unread, and a handshake that
succeeded has made its key of the packets at its positions. -/
structure EndOk (e : LinkEnd) (peer : List Message) : Prop where
  connected : e.node.connected = true
  small : ∀ m ∈ peer, m.data.length < 2 ^ 31 ∧ (m.type = 1 ∨ m.type = 3)
  taken : e.taken ≤ peer.length
  unread : e.inbox.unread = (peer.drop e.taken).flatMap Message.wire
  attempt : ∀ own random, e.attempt = some (own, random) →
    (∃ m, e.sent[own]? = some m ∧ m.type = 1 ∧ firstBytes m.data = random) ∧
      ∀ h ∈ e.completed, h.own < own
  begun : ∀ h ∈ e.completed, h.own < e.sent.length
  completed : ∀ h ∈ e.completed, h.theirs < e.taken ∧ ∃ own theirs, Paired e.sent peer h own theirs
  ordered : e.completed.Pairwise fun h h' => h.own < h'.own ∧ h.theirs < h'.theirs
  authenticated : e.authenticated = true ↔ e.completed ≠ []
  session : ∀ h ∈ e.completed.getLast?, e.sessionKey = h.key

section End

variable {e : LinkEnd} {peer : List Message}

/-- This end has sent a packet. -/
theorem EndOk.sent_append (h : EndOk e peer) {node : Node} (hnode : node.connected = true)
    (m : Message) : EndOk { e with node := node, sent := e.sent ++ [m] } peer where
  connected := hnode
  small := h.small
  taken := h.taken
  unread := h.unread
  attempt := by
    intro own random hattempt
    obtain ⟨⟨m', hm', hrest⟩, hbefore⟩ := h.attempt own random hattempt
    exact ⟨⟨m', getElem?_append_of_some hm' _, hrest⟩, hbefore⟩
  begun := by
    intro done hdone
    rw [List.length_append]
    exact Nat.lt_add_right _ (h.begun done hdone)
  completed := by
    intro done hdone
    obtain ⟨hlt, own, theirs, hpaired⟩ := h.completed done hdone
    exact ⟨hlt, own, theirs, getElem?_append_of_some hpaired.ownAt _, hpaired.theirsAt,
      hpaired.types, hpaired.key⟩
  ordered := h.ordered
  authenticated := h.authenticated
  session := h.session

/-- The other end has sent a packet. -/
theorem EndOk.peer_append (h : EndOk e peer) {m : Message}
    (hsmall : m.data.length < 2 ^ 31 ∧ (m.type = 1 ∨ m.type = 3)) :
    EndOk { e with inbox := ⟨e.inbox.buffered, e.inbox.inFlight ++ m.wire⟩ } (peer ++ [m]) where
  connected := h.connected
  small := by
    intro m' hm'
    rcases List.mem_append.mp hm' with hold | hnew
    · exact h.small m' hold
    · rw [List.mem_singleton.mp hnew]
      exact hsmall
  taken := by
    rw [List.length_append]
    exact Nat.le_add_right_of_le h.taken
  unread := by
    have hunread := h.unread
    dsimp only
    rw [List.drop_append_of_le_length h.taken, List.flatMap_append, ← hunread,
      Stream.unread, Stream.unread, List.append_assoc, List.flatMap_singleton]
  attempt := h.attempt
  begun := h.begun
  completed := by
    intro done hdone
    obtain ⟨hlt, own, theirs, hpaired⟩ := h.completed done hdone
    exact ⟨hlt, own, theirs, hpaired.ownAt, getElem?_append_of_some hpaired.theirsAt _,
      hpaired.types, hpaired.key⟩
  ordered := h.ordered
  authenticated := h.authenticated
  session := h.session

/-- The call of `network_handshake` has sent its packet, the last one. -/
theorem EndOk.attempted (h : EndOk e peer) {own : ℕ} {m : Message} {random : Vector UInt8 32}
    (hown : e.sent[own]? = some m) (htype : m.type = 1) (hdata : firstBytes m.data = random)
    (hbefore : ∀ done ∈ e.completed, done.own < own) :
    EndOk { e with attempt := some (own, random) } peer where
  connected := h.connected
  small := h.small
  taken := h.taken
  unread := h.unread
  attempt := by
    intro own' random' hattempt
    obtain ⟨rfl, rfl⟩ := Prod.mk.inj (Option.some.inj hattempt)
    exact ⟨⟨m, hown, htype, hdata⟩, hbefore⟩
  begun := h.begun
  completed := h.completed
  ordered := h.ordered
  authenticated := h.authenticated
  session := h.session

/-- A call that takes no packet. -/
theorem EndOk.idle (h : EndOk e peer) {s : Stream} (hsame : s.unread = e.inbox.unread) :
    EndOk { e with inbox := s, attempt := none } peer where
  connected := h.connected
  small := h.small
  taken := h.taken
  unread := hsame.trans h.unread
  attempt := fun _ _ hattempt => nomatch hattempt
  begun := h.begun
  completed := h.completed
  ordered := h.ordered
  authenticated := h.authenticated
  session := h.session

/-- A call that takes a packet. -/
theorem EndOk.advance (h : EndOk e peer) {node : Node} {s : Stream}
    (hnode : node.connected = true) (hlt : e.taken < peer.length)
    (hunread : s.unread = (peer.drop (e.taken + 1)).flatMap Message.wire) :
    EndOk { e with node := node, inbox := s, attempt := none, taken := e.taken + 1 } peer where
  connected := hnode
  small := h.small
  taken := hlt
  unread := hunread
  attempt := fun _ _ hattempt => nomatch hattempt
  begun := h.begun
  completed := by
    intro done hdone
    obtain ⟨hbefore, hpaired⟩ := h.completed done hdone
    exact ⟨Nat.lt_succ_of_lt hbefore, hpaired⟩
  ordered := h.ordered
  authenticated := h.authenticated
  session := h.session

/-- The packet that was taken completes the handshake. -/
theorem EndOk.complete (h : EndOk e peer) (hidle : e.attempt = none) {done : Handshake}
    {own theirs : Message}
    (hpaired : Paired e.sent peer done own theirs) (hlt : done.theirs < e.taken)
    (hafter : ∀ h ∈ e.completed, h.own < done.own ∧ h.theirs < done.theirs) :
    EndOk { e with
      sessionKey := done.key, authenticated := true, completed := e.completed ++ [done] }
      peer where
  connected := h.connected
  small := h.small
  taken := h.taken
  unread := h.unread
  attempt := by
    intro own' random hattempt
    rw [hidle] at hattempt
    cases hattempt
  begun := by
    intro h' hh'
    rcases List.mem_append.mp hh' with hold | hnew
    · exact h.begun h' hold
    · rw [List.mem_singleton.mp hnew]
      exact (List.getElem?_eq_some_iff.mp hpaired.ownAt).1
  completed := by
    intro h' hh'
    rcases List.mem_append.mp hh' with hold | hnew
    · exact h.completed h' hold
    · rw [List.mem_singleton.mp hnew]
      exact ⟨hlt, own, theirs, hpaired⟩
  ordered := by
    refine List.pairwise_append.mpr ⟨h.ordered, List.pairwise_singleton _ _, ?_⟩
    intro h' hh' done' hdone'
    rw [List.mem_singleton.mp hdone']
    exact hafter h' hh'
  authenticated := by simp
  session := by
    intro h' hh'
    rw [List.getLast?_concat] at hh'
    rw [Option.some.inj hh']

/-- If the call takes a header, the packet is too large for the buffer or has arrived whole. -/
def EndIntact (e : LinkEnd) (peer : List Message) (a : Arrivals) : Prop :=
  HeaderReady e.inbox a → ∀ m ∈ peer[e.taken]?, m.data.length ≤ 256 →
    m.data.length ≤ (streamAtBody e.inbox a m.data.length).buffered.length

instance (s : Stream) (a : Arrivals) : Decidable (HeaderReady s a) :=
  inferInstanceAs (Decidable (_ ∧ _))

instance (e : LinkEnd) (peer : List Message) (a : Arrivals) : Decidable (EndIntact e peer a) :=
  inferInstanceAs (Decidable (_ → ∀ m ∈ peer[e.taken]?, m.data.length ≤ 256 → _))

/-- With bytes to come there is a packet to take. -/
theorem EndOk.exists_packet (h : EndOk e peer) {a : Arrivals} (hready : HeaderReady e.inbox a) :
    ∃ m, peer[e.taken]? = some m ∧
      e.inbox.unread = m.wire ++ (peer.drop (e.taken + 1)).flatMap Message.wire := by
  rcases Nat.lt_or_ge e.taken peer.length with hlt | hge
  · refine ⟨peer[e.taken], List.getElem?_eq_getElem hlt, ?_⟩
    rw [h.unread, List.drop_eq_getElem_cons hlt, List.flatMap_cons]
  · have hempty : (e.inbox.deliver a.select).unread = [] := by
      rw [Stream.unread_deliver, h.unread, List.drop_eq_nil_of_le hge]
      rfl
    exact absurd (List.append_eq_nil_iff.mp hempty).1 hready.1

/-- What the rest of a call of `network_handshake` does: it gives up, it takes the next packet in
vain, or it takes it for its key. -/
inductive Finished (e : LinkEnd) (peer : List Message) : LinkEnd → Prop
  | closed (hattempt : e.attempt = none) : Finished e peer e
  | idle {s : Stream} (hsame : s.unread = e.inbox.unread) :
      Finished e peer { e with inbox := s, attempt := none }
  | vain {node : Node} {s : Stream} {m : Message} (hnode : node.connected = true)
      (hm : peer[e.taken]? = some m) (hsmall : m.data.length ≤ 256)
      (hunread : s.unread = (peer.drop (e.taken + 1)).flatMap Message.wire) :
      Finished e peer
        { e with node := node, inbox := s, attempt := none, taken := e.taken + 1 }
  | keyed {node : Node} {s : Stream} {own : ℕ} {random : Vector UInt8 32} {m : Message}
      (hattempt : e.attempt = some (own, random)) (hnode : node.connected = true)
      (hm : peer[e.taken]? = some m) (htype : m.type = 1) (hsmall : m.data.length ≤ 256)
      (hunread : s.unread = (peer.drop (e.taken + 1)).flatMap Message.wire) :
      Finished e peer
        { e with
          node := node, inbox := s, attempt := none, taken := e.taken + 1
          sessionKey := xorKey random (firstBytes m.data), authenticated := true
          completed := e.completed ++ [⟨own, e.taken, xorKey random (firstBytes m.data)⟩] }

theorem finish_finished (h : EndOk e peer) {a : Arrivals} (hintact : EndIntact e peer a) :
    Finished e peer (e.finish a) := by
  unfold LinkEnd.finish
  split
  · rename_i hattempt
    exact .closed hattempt
  · rename_i own random hattempt
    dsimp only
    by_cases hready : HeaderReady e.inbox a
    · obtain ⟨m, hm, hwire⟩ := h.exists_packet hready
      obtain ⟨hlen, htype⟩ := h.small m (List.mem_of_getElem? hm)
      rcases Nat.lt_or_ge 256 m.data.length with hlarge | hsmall
      · obtain ⟨s', hcall, hsame⟩ := networkReceivePacket_large h.connected hready hwire hlarge hlen
        rw [hcall]
        simp only [hsame, Nat.lt_irrefl, if_false]
        exact .idle hsame
      · obtain ⟨node', s', received, hcall, hnode, hshorter, houtcome⟩ :=
          networkReceivePacket_ready h.connected hready hwire hsmall hlen
        rw [if_pos (hintact hready m hm hsmall)] at houtcome
        obtain ⟨rfl, hleft⟩ := houtcome
        rw [hcall]
        simp only [hshorter, if_true]
        split_ifs with hfails
        · exact .vain hnode hm hsmall hleft
        · obtain ⟨hone, -⟩ := not_or.mp hfails
          have hkeyed : m.type = 1 := by
            rcases htype with hone' | hthree
            · exact hone'
            · rw [hthree] at hone
              exact absurd (by decide) hone
          exact .keyed hattempt hnode hm hkeyed hsmall hleft
    · obtain ⟨s', hcall, hsame⟩ := @networkReceivePacket_idle _ _ 256 _ h.connected hready
      rw [hcall]
      simp only [hsame, Nat.lt_irrefl, if_false]
      exact .idle hsame

theorem EndOk.finished (h : EndOk e peer) {e' : LinkEnd} (hfinished : Finished e peer e') :
    EndOk e' peer := by
  cases hfinished with
  | closed => exact h
  | idle hsame => exact h.idle hsame
  | vain hnode hm hsmall hunread =>
    exact h.advance hnode (List.getElem?_eq_some_iff.mp hm).1 hunread
  | @keyed node s own random m hattempt hnode hm htype hsmall hunread =>
    obtain ⟨⟨sent, hsent, hone, hrandom⟩, hbefore⟩ := h.attempt own random hattempt
    have hadvanced := h.advance hnode (List.getElem?_eq_some_iff.mp hm).1 hunread
    refine @EndOk.complete _ _ hadvanced rfl ⟨own, e.taken, xorKey random (firstBytes m.data)⟩
      sent m ?_ (Nat.lt_succ_self _) ?_
    · exact ⟨hsent, hm, ⟨hone, htype⟩, by rw [hrandom]⟩
    · intro h' hh'
      exact ⟨hbefore h' hh', (h.completed h' hh').1⟩

end End

/-! ## A whole run -/

/-- Both ends, each with what the other one has sent. -/
def LinkOk (link : Link) : Prop := ∀ p, EndOk (link p) (link !p).sent

/-- Packets are written whole, and a packet that is read has arrived whole. -/
def Intact (link : Link) : LinkEvent → Prop
  | .begin p _ w => (link p).attempt = none → w.headerSent = 12 ∧ w.dataSent = 32
  | .send _ data w => data.length < 2 ^ 31 ∧ w.headerSent = 12 ∧ w.dataSent = data.length
  | .finish p a => EndIntact (link p) (link !p).sent a

theorem linkOk_start {nodes : Bool → Node} (hnodes : ∀ p, (nodes p).connected = true) :
    LinkOk (Link.start nodes) := fun p =>
  { connected := hnodes p
    small := fun _ hm => nomatch hm
    taken := Nat.le_refl _
    unread := rfl
    attempt := fun _ _ h => nomatch h
    begun := fun _ h => nomatch h
    completed := fun _ h => nomatch h
    ordered := List.Pairwise.nil
    authenticated := by simp [Link.start]
    session := fun _ h => nomatch h }

section Step

variable {link : Link} {p : Bool}

theorem LinkOk.of_ends (hself : EndOk (link p) (link !p).sent)
    (hother : EndOk (link !p) (link p).sent) : LinkOk link := by
  intro q
  by_cases hq : q = p
  · rwa [hq]
  · rwa [Bool.eq_not_of_ne hq, Bool.not_not]

/-- A packet that is written whole is unread at the other end. -/
theorem LinkOk.write (h : LinkOk link) {m : Message} {w : Writing}
    (hsmall : m.data.length < 2 ^ 31 ∧ (m.type = 1 ∨ m.type = 3)) (hheader : w.headerSent = 12)
    (hdata : w.dataSent = m.data.length) : LinkOk (link.write p m w) := by
  obtain ⟨hconnected, hwritten, -⟩ := networkSendPacket_whole (h p).connected hheader hdata
  have hother := h !p
  rw [Bool.not_not] at hother
  apply LinkOk.of_ends (p := p)
  · rw [write_self, write_other]
    exact (h p).sent_append hconnected m
  · rw [write_self, write_other, hwritten]
    exact hother.peer_append hsmall

theorem LinkOk.begin (h : LinkOk link) {random : Vector UInt8 32} {w : Writing}
    (hintact : Intact link (.begin p random w)) : LinkOk (handshakeBegin link p random w) := by
  unfold handshakeBegin
  split
  · exact h
  · rename_i hidle
    obtain ⟨hheader, hdata⟩ := hintact hidle
    have hlength : ((w.message 1 random.toList).data.length : ℤ) = 32 := by
      simp [Writing.message]
    have hwritten := h.write (p := p) (m := w.message 1 random.toList)
      ⟨by omega, Or.inl rfl⟩ hheader (hdata.trans hlength.symm)
    obtain ⟨-, -, hsent⟩ := networkSendPacket_whole (m := w.message 1 random.toList)
      (h p).connected hheader (hdata.trans hlength.symm)
    dsimp only
    rw [if_neg (Int.not_lt.mpr hsent)]
    apply LinkOk.of_ends (p := p)
    · rw [Function.update_self, Function.update_of_ne (Bool.not_ne_self p)]
      refine (hwritten p).attempted (m := w.message 1 random.toList) ?_ rfl
        (firstBytes_toList random) ?_
      · rw [write_self]
        simp
      · rw [write_self]
        exact (h p).begun
    · rw [Function.update_self, Function.update_of_ne (Bool.not_ne_self p)]
      have hother := hwritten !p
      rwa [Bool.not_not] at hother

theorem Finished.sent {e e' : LinkEnd} {peer : List Message} (h : Finished e peer e') :
    e'.sent = e.sent := by
  cases h <;> rfl

theorem LinkOk.step (h : LinkOk link) {event : LinkEvent} (hintact : Intact link event) :
    LinkOk (linkStep link event) := by
  cases event with
  | begin p random w => exact h.begin hintact
  | send p data w => exact h.write ⟨hintact.1, Or.inr rfl⟩ hintact.2.1 hintact.2.2
  | finish p a =>
    have hfinished := finish_finished (h p) hintact
    have hother := h !p
    rw [Bool.not_not] at hother
    apply LinkOk.of_ends (p := p)
    · rw [linkStep, Function.update_self, Function.update_of_ne (Bool.not_ne_self p)]
      exact (h p).finished hfinished
    · rw [linkStep, Function.update_self, Function.update_of_ne (Bool.not_ne_self p),
        hfinished.sent]
      exact hother

end Step

theorem linkOk_run {nodes : Bool → Node} (hnodes : ∀ p, (nodes p).connected = true)
    {events : List LinkEvent} (hintact : Along linkStep Intact (Link.start nodes) events) :
    LinkOk (run linkStep (Link.start nodes) events) :=
  run_invariant (fun _ _ h hevent => h.step hevent) (linkOk_start hnodes) hintact

theorem xorKey_eq_iff (a b c d : Vector UInt8 32) :
    xorKey a b = xorKey c d ↔ xorKey a d = xorKey c b := by
  have hbyte : ∀ w x y z : UInt8, w ^^^ x = y ^^^ z → w ^^^ z = y ^^^ x := by
    intro w x y z hxor
    calc w ^^^ z = (w ^^^ x) ^^^ (x ^^^ z) := by
          rw [← UInt8.xor_assoc, UInt8.xor_assoc w, UInt8.xor_self, UInt8.xor_zero]
      _ = y ^^^ x := by
          rw [hxor, UInt8.xor_comm x, UInt8.xor_assoc, ← UInt8.xor_assoc z, UInt8.xor_self,
            UInt8.zero_xor]
  have hhalf : ∀ {a b c d : Vector UInt8 32}, xorKey a b = xorKey c d →
      xorKey a d = xorKey c b := by
    intro a b c d h
    ext i hi
    have hget := congrArg (fun v => v[i]) h
    simp only [xorKey, Vector.getElem_ofFn] at hget ⊢
    rw [hbyte _ _ _ _ hget]
  exact ⟨hhalf, hhalf⟩

theorem xorKey_self (a : Vector UInt8 32) : xorKey a a = Vector.replicate 32 0 := by
  ext i hi
  simp [xorKey]

/-- In every run, the session keys of the two ends are those of their last handshakes. They agree
when each of these took the packet of the other, and otherwise exactly when the random bytes
happen to cancel. -/
theorem sessionKeys_eq_iff {nodes : Bool → Node} (hnodes : ∀ p, (nodes p).connected = true)
    {events : List LinkEvent} (hintact : Along linkStep Intact (Link.start nodes) events)
    {link : Link} (hlink : link = run linkStep (Link.start nodes) events)
    (hauthenticated : ∀ p, (link p).authenticated = true) :
    ∃ a b own theirs own' theirs',
      (link false).completed.getLast? = some a ∧ (link true).completed.getLast? = some b ∧
      Paired (link false).sent (link true).sent a own theirs ∧
      Paired (link true).sent (link false).sent b own' theirs' ∧
      ((link false).sessionKey = (link true).sessionKey ↔
        xorKey (firstBytes own.data) (firstBytes theirs'.data) =
          xorKey (firstBytes own'.data) (firstBytes theirs.data)) ∧
      (a.own = b.theirs → a.theirs = b.own →
        (link false).sessionKey = (link true).sessionKey) := by
  have hok : LinkOk link := hlink ▸ linkOk_run hnodes hintact
  have hlast : ∀ p, ∃ h own theirs, (link p).completed.getLast? = some h ∧
      Paired (link p).sent (link !p).sent h own theirs := by
    intro p
    have hne := (hok p).authenticated.mp (hauthenticated p)
    obtain ⟨-, own, theirs, hpaired⟩ := (hok p).completed _ (List.getLast_mem hne)
    exact ⟨_, own, theirs, List.getLast?_eq_some_getLast hne, hpaired⟩
  obtain ⟨a, own, theirs, ha, hpaired⟩ := hlast false
  obtain ⟨b, own', theirs', hb, hpaired'⟩ := hlast true
  rw [Bool.not_false] at hpaired
  rw [Bool.not_true] at hpaired'
  have hiff : (link false).sessionKey = (link true).sessionKey ↔
      xorKey (firstBytes own.data) (firstBytes theirs'.data) =
        xorKey (firstBytes own'.data) (firstBytes theirs.data) := by
    rw [(hok false).session a ha, (hok true).session b hb, hpaired.key, hpaired'.key]
    exact xorKey_eq_iff _ _ _ _
  refine ⟨a, b, own, theirs, own', theirs', ha, hb, hpaired, hpaired', hiff, ?_⟩
  intro hown htheirs
  have hsame : own = theirs' := by
    have hat := hpaired.ownAt
    rw [hown, hpaired'.theirsAt] at hat
    exact (Option.some.inj hat).symm
  have hsame' : theirs = own' := by
    have hat := hpaired.theirsAt
    rw [htheirs, hpaired'.ownAt] at hat
    exact (Option.some.inj hat).symm
  rw [hiff, hsame, hsame', xorKey_self, xorKey_self]

/-! ## A packet that is too large -/

/-- The next packet for an end does not fit into the buffer of `network_handshake`. -/
def Oversized (link : Link) (p : Bool) : Prop :=
  ∃ m ∈ (link !p).sent[(link p).taken]?, 256 < m.data.length

instance (link : Link) (p : Bool) : Decidable (Oversized link p) :=
  inferInstanceAs (Decidable (∃ m ∈ (link !p).sent[(link p).taken]?, 256 < m.data.length))

section Oversized

variable {link : Link} {p : Bool}

/-- The end that is not about to finish a call keeps its handshakes, and no packet that was sent
is forgotten. -/
theorem linkStep_frame (link : Link) (event : LinkEvent) (p : Bool)
    (hfinish : ∀ a, event ≠ .finish p a) :
    (linkStep link event p).completed = (link p).completed ∧
      (linkStep link event p).taken = (link p).taken ∧
      (link p).sent <+: (linkStep link event p).sent := by
  have hwrite : ∀ q m w, (link.write q m w p).completed = (link p).completed ∧
      (link.write q m w p).taken = (link p).taken ∧
      (link p).sent <+: (link.write q m w p).sent := by
    intro q m w
    by_cases hp : p = q
    · subst hp
      rw [write_self]
      exact ⟨rfl, rfl, List.prefix_append _ _⟩
    · obtain rfl := Bool.eq_not_of_ne hp
      rw [write_other]
      exact ⟨rfl, rfl, List.prefix_refl _⟩
  cases event with
  | send q data w => exact hwrite q _ w
  | begin q random w =>
    rw [linkStep, handshakeBegin]
    cases (link q).attempt with
    | some _ => exact ⟨rfl, rfl, List.prefix_refl _⟩
    | none =>
      dsimp only
      split_ifs
      · exact hwrite q _ w
      · by_cases hp : p = q
        · subst hp
          rw [Function.update_self]
          exact hwrite p _ w
        · rw [Function.update_of_ne hp]
          exact hwrite q _ w
  | finish q a =>
    have hp : p ≠ q := by
      rintro rfl
      exact hfinish a rfl
    rw [linkStep, Function.update_of_ne hp]
    exact ⟨rfl, rfl, List.prefix_refl _⟩

theorem Oversized.step (h : LinkOk link) {event : LinkEvent} (hintact : Intact link event)
    (hlarge : Oversized link p) :
    Oversized (linkStep link event) p ∧
      (linkStep link event p).completed = (link p).completed := by
  obtain ⟨m, hm, hsize⟩ := hlarge
  by_cases hfinish : ∃ a, event = .finish p a
  · obtain ⟨a, rfl⟩ := hfinish
    have hfinished := finish_finished (h p) hintact
    have hkept : ((link p).finish a).taken = (link p).taken ∧
        ((link p).finish a).completed = (link p).completed := by
      generalize (link p).finish a = e' at hfinished
      cases hfinished with
      | closed => exact ⟨rfl, rfl⟩
      | idle => exact ⟨rfl, rfl⟩
      | vain _ hm' hsmall =>
        obtain rfl := Option.some.inj (hm.symm.trans hm')
        omega
      | keyed _ _ hm' _ hsmall =>
        obtain rfl := Option.some.inj (hm.symm.trans hm')
        omega
    rw [Oversized, linkStep, Function.update_self, Function.update_of_ne (Bool.not_ne_self p),
      hkept.1, hkept.2]
    exact ⟨⟨m, hm, hsize⟩, rfl⟩
  · obtain ⟨hcompleted, htaken, -⟩ := linkStep_frame link event p fun a ha => hfinish ⟨a, ha⟩
    refine ⟨⟨m, ?_, hsize⟩, hcompleted⟩
    have hprefix : (link !p).sent <+: (linkStep link event !p).sent := by
      by_cases hother : ∃ a, event = .finish (!p) a
      · obtain ⟨a, rfl⟩ := hother
        rw [linkStep, Function.update_self, (finish_finished (h !p) hintact).sent]
      · exact (linkStep_frame link event (!p) fun a ha => hother ⟨a, ha⟩).2.2
    obtain ⟨later, hlater⟩ := hprefix
    rw [htaken, ← hlater]
    exact getElem?_append_of_some hm later

end Oversized

/-- Once the next packet for an end is one of more than 256 bytes, no handshake of this end
succeeds any more. -/
theorem completed_of_oversized {nodes : Bool → Node} (hnodes : ∀ p, (nodes p).connected = true)
    {events more : List LinkEvent} {p : Bool}
    (hintact : Along linkStep Intact (Link.start nodes) (events ++ more))
    (hlarge : Oversized (run linkStep (Link.start nodes) events) p) :
    (run linkStep (Link.start nodes) (events ++ more) p).completed =
      (run linkStep (Link.start nodes) events p).completed := by
  obtain ⟨hbefore, hafter⟩ := along_append.mp hintact
  have hok := linkOk_run hnodes hbefore
  rw [run, List.foldl_append]
  change (run linkStep (run linkStep (Link.start nodes) events) more p).completed = _
  generalize run linkStep (Link.start nodes) events = link at hafter hlarge hok
  have hkeep : ∀ link' event,
      (LinkOk link' ∧ Oversized link' p ∧ (link' p).completed = (link p).completed) →
        Intact link' event → LinkOk (linkStep link' event) ∧ Oversized (linkStep link' event) p ∧
          (linkStep link' event p).completed = (link p).completed := by
    rintro link' event ⟨hok', hlarge', hsame⟩ hevent
    obtain ⟨hstill, hkept⟩ := hlarge'.step hok' hevent
    exact ⟨hok'.step hevent, hstill, hkept.trans hsame⟩
  exact (run_invariant hkeep ⟨hok, hlarge, rfl⟩ hafter).2.2

/-! ## Two runs -/

/-- Everything is sent. -/
def wholeWriting (len : ℤ) : Writing := ⟨0, 0, 0, 12, len⟩

/-- Both ends send their packets, and then both read. -/
def oneHandshake : List LinkEvent :=
  [.begin false (Vector.replicate 32 1) (wholeWriting 32),
    .begin true (Vector.replicate 32 2) (wholeWriting 32),
    .finish false ⟨44, 0, 0, 0, 0⟩, .finish true ⟨44, 0, 0, 0, 0⟩]

theorem oneHandshake_intact :
    Along linkStep Intact (Link.start fun _ => connectedNode) oneHandshake := by
  refine ⟨fun _ => ⟨rfl, rfl⟩, fun _ => ⟨rfl, rfl⟩, ?_, ?_, trivial⟩
  · change EndIntact _ _ _
    decide +kernel
  · change EndIntact _ _ _
    decide +kernel

theorem sessionKeys_eq_iff_oneHandshake :
    ∃ link : Link, (∀ p, (link p).authenticated = true) ∧
      ∃ a b own theirs own' theirs',
        (link false).completed.getLast? = some a ∧ (link true).completed.getLast? = some b ∧
        Paired (link false).sent (link true).sent a own theirs ∧
        Paired (link true).sent (link false).sent b own' theirs' ∧
        ((link false).sessionKey = (link true).sessionKey ↔
          xorKey (firstBytes own.data) (firstBytes theirs'.data) =
            xorKey (firstBytes own'.data) (firstBytes theirs.data)) ∧
        (a.own = b.theirs → a.theirs = b.own →
          (link false).sessionKey = (link true).sessionKey) := by
  have hauthenticated : ∀ p,
      (run linkStep (Link.start fun _ => connectedNode) oneHandshake p).authenticated = true := by
    decide +kernel
  exact ⟨_, hauthenticated,
    sessionKeys_eq_iff (fun _ => rfl) oneHandshake_intact rfl hauthenticated⟩

/-- A packet of data comes before the handshake of the other end. -/
def largePacket : List LinkEvent :=
  [.send true (List.replicate 257 0) (wholeWriting 257),
    .begin true (Vector.replicate 32 2) (wholeWriting 32),
    .begin false (Vector.replicate 32 1) (wholeWriting 32)]

theorem completed_of_oversized_largePacket :
    (run linkStep (Link.start fun _ => connectedNode)
        (largePacket ++ [.finish false ⟨400, 0, 0, 0, 0⟩]) false).completed =
      (run linkStep (Link.start fun _ => connectedNode) largePacket false).completed := by
  have hlarge : Oversized (run linkStep (Link.start fun _ => connectedNode) largePacket) false := by
    decide +kernel
  refine completed_of_oversized (fun _ => rfl) ⟨⟨?_, rfl, ?_⟩, fun _ => ⟨rfl, rfl⟩,
    fun _ => ⟨rfl, rfl⟩, ?_, trivial⟩ hlarge
  · rw [List.length_replicate]
    decide
  · rw [List.length_replicate]
    rfl
  · change EndIntact _ _ _
    decide +kernel

end Blackstone.SecuritySystem
