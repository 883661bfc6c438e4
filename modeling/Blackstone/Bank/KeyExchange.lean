import Blackstone.Bank.HexText
import Blackstone.Library.DefaultMap

/-!
# The key exchange

`key_exchange.cpp`. A node asks a peer for its key (`initiateKeyExchange`), the peer answers with
its own (`respondToKeyExchange`), and the node records the answer (`finalizeKeyExchange`). Keys
and random values travel in hexadecimal and arrive unchanged.

The exchange runs to its end, but it never agrees on a secret (`never_agrees`): the peer's side is
never completed, and the secret of the node does not depend on any key.
-/

namespace Blackstone.Bank

open Delimited DefaultMap

/-- `KeyExchangeState`. -/
structure KeyExchangeState where
  peerId : Str
  publicKey : UInt64
  ephemeralKey : UInt64
  sessionId : Str
  completed : Bool
  timestamp : UInt64

/-- `KeyExchangeProtocol`, without its mutex. -/
structure KeyExchangeProtocol where
  activeExchanges : Map Str KeyExchangeState
  nodeId : Str
  myPublicKey : UInt64
  myPrivateKey : UInt64

namespace KeyExchangeProtocol

/-- The constructor. -/
def create (id : Str) (pubKey privKey : UInt64) : KeyExchangeProtocol where
  activeExchanges := ∅
  nodeId := id
  myPublicKey := pubKey
  myPrivateKey := privKey

/-- `KeyExchangeProtocol::serializeKeyMessage`. -/
def serializeKeyMessage (publicKey nonce : UInt64) : Str :=
  hexadecimal publicKey.toNat ++ colon :: hexadecimal nonce.toNat

/-- `KeyExchangeProtocol::deserializeKeyMessage`; a number that cannot be read is thrown. -/
def deserializeKeyMessage (msg : Str) : Option (UInt64 × UInt64) :=
  if colon ∈ msg then do
    let pubKey ← stoullHex (getline colon msg).1
    let nonce ← stoullHex (getline colon msg).2
    return (pubKey, nonce)
  else some (0, 0)

/-- The random value and the clock that a step reads. -/
structure Draw where
  random : UInt64
  sessionTime : UInt64
  timestamp : UInt64

/-- `KeyExchangeProtocol::initiateKeyExchange`, with the message. -/
def initiateKeyExchange (s : KeyExchangeProtocol) (draw : Draw) (peerId : Str) :
    Str × KeyExchangeProtocol :=
  let state : KeyExchangeState :=
    { peerId := peerId
      publicKey := 0
      ephemeralKey := draw.random
      sessionId := sha1 (peerId ++ decimal draw.random.toNat ++ decimal draw.sessionTime.toNat)
      completed := false
      timestamp := draw.timestamp }
  (serializeKeyMessage s.myPublicKey state.ephemeralKey,
    { s with activeExchanges := s.activeExchanges.insert peerId state })

/-- `KeyExchangeProtocol::respondToKeyExchange`, with the response. -/
def respondToKeyExchange (s : KeyExchangeProtocol) (draw : Draw) (peerId message : Str) :
    Option (Str × KeyExchangeProtocol) := do
  let peerKeys ← deserializeKeyMessage message
  let state : KeyExchangeState :=
    { peerId := peerId
      publicKey := peerKeys.1
      ephemeralKey := draw.random
      sessionId := sha1 (peerId ++ decimal draw.random.toNat ++ decimal peerKeys.2.toNat)
      completed := false
      timestamp := draw.timestamp }
  return (serializeKeyMessage s.myPublicKey state.ephemeralKey,
    { s with activeExchanges := s.activeExchanges.insert peerId state })

/-- `KeyExchangeProtocol::finalizeKeyExchange`. -/
def finalizeKeyExchange (s : KeyExchangeProtocol) (peerId response : Str) :
    Option (Bool × KeyExchangeProtocol) :=
  match s.activeExchanges.lookup peerId with
  | none => some (false, s)
  | some state => do
    let peerKeys ← deserializeKeyMessage response
    let state := { state with publicKey := peerKeys.1, completed := true }
    return (true, { s with activeExchanges := s.activeExchanges.insert peerId state })

/-- `KeyExchangeProtocol::getSharedSecret`. -/
def getSharedSecret (s : KeyExchangeProtocol) (peerId : Str) : Str :=
  match s.activeExchanges.lookup peerId with
  | none => []
  | some state => if state.completed then sha1Double (hexadecimal 1) else []

/-! ## Messages -/

/-- Keys and random values arrive as they were sent. -/
theorem deserialize_serialize (publicKey nonce : UInt64) :
    deserializeKeyMessage (serializeKeyMessage publicKey nonce) = some (publicKey, nonce) := by
  have hfree : colon ∉ hexadecimal publicKey.toNat := by
    intro hmem
    obtain ⟨i, hi, heq⟩ := lowerHex_hexadecimal _ colon hmem
    exact (hexDigit_facts hi).2.2.2.2.2.2.2 heq.symm
  rw [serializeKeyMessage, deserializeKeyMessage,
    if_pos (List.mem_append_right _ List.mem_cons_self), getline_append_cons hfree,
    stoullHex_hexadecimal, stoullHex_hexadecimal]
  rfl

/-! ## Steps -/

/-- The node has an exchange with the peer, completed or not. -/
def Holds (s : KeyExchangeProtocol) (peerId : Str) (completed : Bool) : Prop :=
  ∃ state, s.activeExchanges.lookup peerId = some state ∧ state.completed = completed

theorem holds_initiateKeyExchange (s : KeyExchangeProtocol) (draw : Draw) (peerId : Str) :
    (s.initiateKeyExchange draw peerId).2.Holds peerId false :=
  ⟨_, Finmap.lookup_insert _, rfl⟩

/-- The answer carries the key of the peer, whose side is not completed. -/
theorem respondToKeyExchange_spec (s : KeyExchangeProtocol) (draw : Draw) (peerId : Str)
    (publicKey nonce : UInt64) :
    ∃ s', s.respondToKeyExchange draw peerId (serializeKeyMessage publicKey nonce) =
        some (serializeKeyMessage s.myPublicKey draw.random, s') ∧ s'.Holds peerId false := by
  rw [respondToKeyExchange, deserialize_serialize]
  exact ⟨_, rfl, _, Finmap.lookup_insert _, rfl⟩

/-- The side that receives an answer is completed. -/
theorem finalizeKeyExchange_spec {s : KeyExchangeProtocol} {peerId : Str} {completed : Bool}
    (h : s.Holds peerId completed) (publicKey nonce : UInt64) :
    ∃ s', s.finalizeKeyExchange peerId (serializeKeyMessage publicKey nonce) = some (true, s') ∧
      s'.Holds peerId true := by
  obtain ⟨state, hlookup, -⟩ := h
  simp only [finalizeKeyExchange, hlookup, deserialize_serialize]
  exact ⟨_, rfl, _, Finmap.lookup_insert _, rfl⟩

theorem Holds.getSharedSecret {s : KeyExchangeProtocol} {peerId : Str} {completed : Bool}
    (h : s.Holds peerId completed) :
    s.getSharedSecret peerId = if completed then sha1Double (hexadecimal 1) else [] := by
  obtain ⟨state, hlookup, hcompleted⟩ := h
  rw [KeyExchangeProtocol.getSharedSecret, hlookup, ← hcompleted]

/-! ## An exchange -/

/-- The four steps of an exchange between two nodes; a thrown exception is `none`. -/
def exchange (a b : KeyExchangeProtocol) (drawA drawB : Draw) :
    Option (Bool × KeyExchangeProtocol × KeyExchangeProtocol) := do
  let initiated := a.initiateKeyExchange drawA b.nodeId
  let responded ← b.respondToKeyExchange drawB a.nodeId initiated.1
  let finalized ← initiated.2.finalizeKeyExchange b.nodeId responded.1
  return (finalized.1, finalized.2, responded.2)

/-- The exchange comes to its end. The node has a secret that depends on nothing, and the peer
has none. -/
theorem exchange_spec (a b : KeyExchangeProtocol) (drawA drawB : Draw) :
    ∃ a' b', exchange a b drawA drawB = some (true, a', b') ∧
      a'.getSharedSecret b.nodeId = sha1Double (hexadecimal 1) ∧
      b'.getSharedSecret a.nodeId = [] := by
  have hinitiated := holds_initiateKeyExchange a drawA b.nodeId
  obtain ⟨b', hresponded, hb⟩ := b.respondToKeyExchange_spec drawB a.nodeId a.myPublicKey
    drawA.random
  obtain ⟨a', hfinalized, ha⟩ := finalizeKeyExchange_spec hinitiated b.myPublicKey drawB.random
  refine ⟨a', b', ?_, ha.getSharedSecret, hb.getSharedSecret⟩
  have hmessage : (a.initiateKeyExchange drawA b.nodeId).1 =
      serializeKeyMessage a.myPublicKey drawA.random := rfl
  simp only [exchange, hmessage, hresponded, Option.bind_eq_bind, Option.bind_some, hfinalized]
  rfl

/-- Both sides of an exchange have the same secret, and it is not empty. -/
def Agrees (a b : KeyExchangeProtocol) (drawA drawB : Draw) : Prop :=
  ∃ completed a' b', exchange a b drawA drawB = some (completed, a', b') ∧
    a'.getSharedSecret b.nodeId ≠ [] ∧
    a'.getSharedSecret b.nodeId = b'.getSharedSecret a.nodeId

/-- The secret of the node that starts an exchange. -/
def initiatorSecret (a b : KeyExchangeProtocol) (drawA drawB : Draw) : Option Str :=
  (exchange a b drawA drawB).map (fun outcome => outcome.2.1.getSharedSecret b.nodeId)

theorem not_agrees (a b : KeyExchangeProtocol) (drawA drawB : Draw) :
    ¬ Agrees a b drawA drawB := by
  rintro ⟨completed, a', b', hexchange, hne, heq⟩
  obtain ⟨a'', b'', hspec, -, hempty⟩ := exchange_spec a b drawA drawB
  rw [hspec] at hexchange
  obtain ⟨-, rfl, rfl⟩ := Option.some.inj hexchange
  exact hne (heq.trans hempty)

theorem initiatorSecret_eq (a b : KeyExchangeProtocol) (drawA drawB : Draw) :
    initiatorSecret a b drawA drawB = some (sha1Double (hexadecimal 1)) := by
  obtain ⟨a', b', hspec, hsecret, -⟩ := exchange_spec a b drawA drawB
  rw [initiatorSecret, hspec, Option.map_some, hsecret]

/-- No exchange agrees on a secret, and the secret of the node that starts it is the same for
all keys and random values. -/
theorem never_agrees (a b : KeyExchangeProtocol) (drawA drawB : Draw)
    (a' b' : KeyExchangeProtocol) (drawA' drawB' : Draw) :
    ¬ Agrees a b drawA drawB ∧
      initiatorSecret a b drawA drawB = initiatorSecret a' b' drawA' drawB' := by
  refine ⟨not_agrees a b drawA drawB, ?_⟩
  rw [initiatorSecret_eq, initiatorSecret_eq]

/-- Alice and Bob, each with a key pair of their own. -/
theorem aliceBob_not_agrees :
    ¬ Agrees (create (ascii "Alice") 25 2) (create (ascii "Bob") 125 3) ⟨7, 0, 0⟩ ⟨8, 1, 1⟩ :=
  not_agrees _ _ _ _

end KeyExchangeProtocol

end Blackstone.Bank
