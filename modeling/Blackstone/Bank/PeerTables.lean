import Blackstone.Bank.Sha1
import Blackstone.Library.InverseMaps
import Blackstone.Library.Runs

/-!
# The peer tables of the network core

`p2p_network.cpp`. `connectedPeers` maps sockets to peers and `peerSockets` maps peers to
sockets; they are changed when a connection is made, when a peer is disconnected and when the
receive loop of a socket ends.

A second connection to a peer that is still connected leaves two sockets for one peer. Along
a run with fresh sockets the two tables are inverse, and a peer with an open connection is
reached, exactly when no peer is connected twice (`peerTables_lawful_iff`).
-/

namespace Blackstone.Bank

open DefaultMap Runs

/-- `socket_t`. -/
abbrev Socket := Int

/-- The tables of `P2PNetworkCore`. -/
structure P2PNetworkCore where
  connectedPeers : Map Socket Str
  peerSockets : Map Str Socket
  peerAddresses : Map Str (Str × Int)

/-- The tables before the first connection. -/
def P2PNetworkCore.create : P2PNetworkCore where
  connectedPeers := ∅
  peerSockets := ∅
  peerAddresses := ∅

/-- `P2PNetworkCore::connectToPeer`, where `socket` and `connect` have succeeded. -/
def P2PNetworkCore.connectToPeer (s : P2PNetworkCore) (peerId address : Str) (port : Int)
    (sock : Socket) : P2PNetworkCore where
  connectedPeers := s.connectedPeers.insert sock peerId
  peerSockets := s.peerSockets.insert peerId sock
  peerAddresses := s.peerAddresses.insert peerId (address, port)

/-- `P2PNetworkCore::disconnectPeer`, with the sockets that it closes. -/
def P2PNetworkCore.disconnectPeer (s : P2PNetworkCore) (peerId : Str) :
    List Socket × P2PNetworkCore :=
  match s.peerSockets.lookup peerId with
  | none => ([], { s with peerAddresses := s.peerAddresses.erase peerId })
  | some sock =>
    ([sock],
      { connectedPeers := s.connectedPeers.erase sock
        peerSockets := s.peerSockets.erase peerId
        peerAddresses := s.peerAddresses.erase peerId })

/-- The end of `P2PNetworkCore::handlePeer`, with the sockets that it closes. -/
def P2PNetworkCore.leaveLoop (s : P2PNetworkCore) (clientSocket : Socket) :
    List Socket × P2PNetworkCore :=
  ([clientSocket],
    match s.connectedPeers.lookup clientSocket with
    | none => s
    | some peerId =>
      { s with
        connectedPeers := s.connectedPeers.erase clientSocket
        peerSockets := s.peerSockets.erase peerId })

/-- The socket to which `P2PNetworkCore::sendToPeer` sends. -/
def P2PNetworkCore.sendToPeer (s : P2PNetworkCore) (peerId : Str) : Option Socket :=
  s.peerSockets.lookup peerId

/-! ## Events -/

/-- A change of the tables. -/
inductive PeerEvent where
  | connectToPeer (peerId address : Str) (port : Int) (sock : Socket)
  | disconnectPeer (peerId : Str)
  | leaveLoop (clientSocket : Socket)

/-- The tables with the connections that are open and the sockets made so far. -/
structure Network where
  core : P2PNetworkCore
  connections : Map Socket Str
  issued : List Socket

/-- A network without connections. -/
def Network.create : Network where
  core := P2PNetworkCore.create
  connections := ∅
  issued := []

/-- The connections that are left when sockets are closed. -/
def closeSockets (connections : Map Socket Str) (socks : List Socket) : Map Socket Str :=
  socks.foldl (fun open' sock => open'.erase sock) connections

/-- The network after an event. -/
def Network.step (n : Network) : PeerEvent → Network
  | .connectToPeer peerId address port sock =>
    { core := n.core.connectToPeer peerId address port sock
      connections := n.connections.insert sock peerId
      issued := sock :: n.issued }
  | .disconnectPeer peerId =>
    { n with
      core := (n.core.disconnectPeer peerId).2
      connections := closeSockets n.connections (n.core.disconnectPeer peerId).1 }
  | .leaveLoop clientSocket =>
    { n with
      core := (n.core.leaveLoop clientSocket).2
      connections := closeSockets n.connections (n.core.leaveLoop clientSocket).1 }

/-- A connection gets a socket that no connection had before. -/
def Fresh (n : Network) : PeerEvent → Prop
  | .connectToPeer _ _ _ sock => sock ∉ n.issued
  | _ => True

/-- The tables are inverse, and messages to a peer with an open connection go to an open
connection with that peer. -/
structure PeerLaw (n : Network) : Prop where
  inverse : ∀ sock peer, n.core.connectedPeers.lookup sock = some peer ↔
    n.core.peerSockets.lookup peer = some sock
  reached : ∀ sock peer, n.connections.lookup sock = some peer →
    ∃ sock', n.core.sendToPeer peer = some sock' ∧ n.connections.lookup sock' = some peer

/-- A connection is made to a peer that is not in the tables. -/
def NewPeer (n : Network) : PeerEvent → Prop
  | .connectToPeer peerId _ _ _ => n.core.peerSockets.lookup peerId = none
  | _ => True

/-! ## What the tables know -/

/-- The open connections are those in the table, and their sockets have been made. -/
structure Tracked (n : Network) : Prop where
  connections : ∀ sock, n.connections.lookup sock = n.core.connectedPeers.lookup sock
  issued : ∀ sock peer, n.core.connectedPeers.lookup sock = some peer → sock ∈ n.issued

theorem PeerLaw.of_inverse {n : Network} (h : Tracked n)
    (hinverse : Inverse n.core.connectedPeers n.core.peerSockets) : PeerLaw n where
  inverse := hinverse
  reached sock peer hopen := by
    refine ⟨sock, ?_, hopen⟩
    rw [h.connections] at hopen
    exact (hinverse sock peer).mp hopen

/-! ## One event -/

/-- A socket is dropped from the open connections and from the table. -/
theorem Tracked.drop {n n' : Network} (h : Tracked n) {sock : Socket}
    (hconnections : ∀ sock', n'.connections.lookup sock' =
      if sock' = sock then none else n.connections.lookup sock')
    (hpeers : ∀ sock', n'.core.connectedPeers.lookup sock' =
      if sock' = sock then none else n.core.connectedPeers.lookup sock')
    (hissued : n'.issued = n.issued) : Tracked n' := by
  refine ⟨?_, ?_⟩
  · intro sock'
    rw [hconnections, hpeers, h.connections]
  · intro sock' peer hlookup
    rw [hpeers] at hlookup
    split at hlookup
    · cases hlookup
    · rw [hissued]
      exact h.issued sock' peer hlookup

theorem Tracked.step {n : Network} (h : Tracked n) (e : PeerEvent) : Tracked (n.step e) := by
  cases e with
  | connectToPeer peerId address port sock =>
    have hpeers : ∀ sock', (n.core.connectedPeers.insert sock peerId).lookup sock' =
        if sock' = sock then some peerId else n.core.connectedPeers.lookup sock' :=
      fun sock' => lookup_insert_eq _ _ _ _
    refine ⟨?_, ?_⟩
    · intro sock'
      show (n.connections.insert sock peerId).lookup sock' = _
      rw [lookup_insert_eq, h.connections]
      exact (hpeers sock').symm
    · intro sock' peer hlookup
      replace hlookup := (hpeers sock').symm.trans hlookup
      split at hlookup
      · rename_i heq
        rw [heq]
        exact List.mem_cons_self
      · exact List.mem_cons_of_mem _ (h.issued sock' peer hlookup)
  | disconnectPeer peerId =>
    simp only [Network.step, P2PNetworkCore.disconnectPeer]
    cases n.core.peerSockets.lookup peerId with
    | none => exact ⟨h.connections, h.issued⟩
    | some sock =>
      exact h.drop (fun _ => lookup_erase_eq _ _ _) (fun _ => lookup_erase_eq _ _ _) rfl
  | leaveLoop clientSocket =>
    simp only [Network.step, P2PNetworkCore.leaveLoop]
    cases hpeer : n.core.connectedPeers.lookup clientSocket with
    | none =>
      -- a socket that was accepted is in no table
      refine h.drop (fun _ => lookup_erase_eq _ _ _) ?_ rfl
      intro sock'
      by_cases hsock : sock' = clientSocket
      · rw [if_pos hsock, hsock]
        exact hpeer
      · rw [if_neg hsock]
    | some peerId =>
      exact h.drop (fun _ => lookup_erase_eq _ _ _) (fun _ => lookup_erase_eq _ _ _) rfl

/-- From lawful tables, an event with a fresh socket leads to lawful tables exactly when it
does not connect to a peer that is connected already. -/
theorem peerLaw_step_iff {n : Network} (h : Tracked n) (hlaw : PeerLaw n) {e : PeerEvent}
    (hfresh : Fresh n e) : PeerLaw (n.step e) ↔ NewPeer n e := by
  have htracked := h.step e
  cases e with
  | connectToPeer peerId address port sock =>
    have hunused : n.core.connectedPeers.lookup sock = none := by
      rw [Option.eq_none_iff_forall_ne_some]
      intro peer hlookup
      exact hfresh (h.issued sock peer hlookup)
    have hiff := inverse_insert_iff hlaw.inverse hunused peerId
    constructor
    · intro hnext
      exact hiff.mp hnext.inverse
    · intro hnew
      exact PeerLaw.of_inverse htracked (hiff.mpr hnew)
  | disconnectPeer peerId =>
    refine ⟨fun _ => trivial, fun _ => PeerLaw.of_inverse htracked ?_⟩
    simp only [Network.step, P2PNetworkCore.disconnectPeer]
    cases hsock : n.core.peerSockets.lookup peerId with
    | none => exact hlaw.inverse
    | some sock => exact Inverse.erase hlaw.inverse ((hlaw.inverse sock peerId).mpr hsock)
  | leaveLoop clientSocket =>
    refine ⟨fun _ => trivial, fun _ => PeerLaw.of_inverse htracked ?_⟩
    simp only [Network.step, P2PNetworkCore.leaveLoop]
    cases hpeer : n.core.connectedPeers.lookup clientSocket with
    | none => exact hlaw.inverse
    | some peerId => exact Inverse.erase hlaw.inverse hpeer

/-! ## Runs -/

theorem tracked_create : Tracked Network.create where
  connections _ := rfl
  issued sock peer hlookup := by
    cases hlookup

theorem peerLaw_create : PeerLaw Network.create where
  inverse := inverse_empty
  reached sock peer hopen := by
    cases hopen

/-- The tables are lawful at first and after every event. -/
def LawfulTables (events : List PeerEvent) : Prop :=
  PeerLaw Network.create ∧ Along Network.step (fun n e => PeerLaw (n.step e)) Network.create events

/-- Along events with fresh sockets, the tables are lawful exactly when no peer is connected
that is connected already. -/
theorem peerTables_lawful_iff {events : List PeerEvent}
    (hfresh : Along Network.step Fresh Network.create events) :
    LawfulTables events ↔ Along Network.step NewPeer Network.create events := by
  have hcongr :
      Along Network.step (fun n e => Fresh n e ∧ PeerLaw (n.step e)) Network.create events ↔
        Along Network.step (fun n e => Fresh n e ∧ NewPeer n e) Network.create events := by
    apply along_congr_of_invariant (fun n => Tracked n ∧ PeerLaw n)
    · intro n e h
      exact and_congr_right (fun hfresh => peerLaw_step_iff h.1 h.2 hfresh)
    · intro n e h hlaw
      exact ⟨h.1.step e, hlaw.2⟩
    · exact ⟨tracked_create, peerLaw_create⟩
  rw [along_and, along_and, and_iff_right hfresh, and_iff_right hfresh] at hcongr
  exact ⟨fun h => hcongr.mp h.2, fun h => ⟨peerLaw_create, hcongr.mpr h⟩⟩

/-- A peer is connected on a socket. -/
def connectAlice (sock : Socket) : PeerEvent :=
  .connectToPeer (ascii "Alice") (ascii "10.0.0.1") 8080 sock

/-- Two connections to one peer, with a disconnection in between. -/
theorem reconnect_lawful_iff :
    LawfulTables [connectAlice 3, .disconnectPeer (ascii "Alice"), connectAlice 4] ↔
      Along Network.step NewPeer Network.create
        [connectAlice 3, .disconnectPeer (ascii "Alice"), connectAlice 4] :=
  peerTables_lawful_iff ⟨List.not_mem_nil, trivial, fun hmem : (4 : Socket) ∈ [3] =>
    absurd (List.mem_singleton.mp hmem) (by decide), trivial⟩

/-- Without it, the first socket is not the one of its peer any more. -/
theorem secondConnection_not_lawful :
    ¬ LawfulTables [connectAlice 3, connectAlice 4] := by
  intro h
  have hinverse := (h.2.2.1.inverse 3 (ascii "Alice")).mp (by decide)
  exact absurd hinverse (by decide)

end Blackstone.Bank
