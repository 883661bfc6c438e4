import Blackstone.Bank.Text
import Blackstone.Library.LockGuard
import Mathlib.Data.List.Sort

/-!
# The peer manager

`peer_manager.cpp`. Every method locks `peersMutex` for its whole body. `adjustPeerScore` calls
`banPeer` from there, which locks it again, so it waits for itself exactly when the score falls
below the threshold (`PeerManager.along_noDeadlock_iff`).

The clock is an argument of the methods that read it. Peers with equal score and latency, whose
order `std::sort` leaves open, come in the order of their keys.
-/

namespace Blackstone.Bank

open Delimited LockGuard Call Runs

/-- `PeerInfo`. -/
structure PeerInfo where
  peerId : Str
  address : Str
  port : Int32
  lastSeen : UInt64
  latency : UInt64
  score : Int32
  isActive : Bool

/-- The constructor without arguments. -/
def PeerInfo.empty : PeerInfo where
  peerId := []
  address := []
  port := 0
  lastSeen := 0
  latency := 0
  score := 0
  isActive := false

/-- The constructor with arguments. -/
def PeerInfo.create (now : UInt64) (id addr : Str) (p : Int32) : PeerInfo where
  peerId := id
  address := addr
  port := p
  lastSeen := now
  latency := 0
  score := 0
  isActive := true

/-- `PeerManager`, without its mutex. -/
structure PeerManager where
  knownPeers : Std.TreeMap Str PeerInfo
  bannedPeers : Std.TreeSet Str
  maxPeers : Nat

namespace PeerManager

/-- The constructor. -/
def create (maxPeersCount : Nat) : PeerManager where
  knownPeers := ∅
  bannedPeers := ∅
  maxPeers := maxPeersCount

/-- The loop of `addPeer` that makes room: the first peer that is not active goes. -/
def makeRoom (peers : Std.TreeMap Str PeerInfo) : Std.TreeMap Str PeerInfo :=
  match peers.toList.find? (fun e => !e.2.isActive) with
  | none => peers
  | some e => peers.erase e.1

/-- `PeerManager::addPeer`. -/
def addPeer (s : PeerManager) (now : UInt64) (peerId address : Str) (port : Int32) :
    PeerManager :=
  if s.bannedPeers.contains peerId then s
  else
    let peers := if s.maxPeers ≤ s.knownPeers.size then makeRoom s.knownPeers else s.knownPeers
    match peers[peerId]? with
    | none => { s with knownPeers := peers.insert peerId (PeerInfo.create now peerId address port) }
    | some info =>
      { s with
        knownPeers := peers.insert peerId
          { info with
            address := address
            port := port
            lastSeen := now
            isActive := true } }

/-- Changes a peer if it is known. -/
def change (s : PeerManager) (peerId : Str) (f : PeerInfo → PeerInfo) : PeerManager :=
  match s.knownPeers[peerId]? with
  | none => s
  | some info => { s with knownPeers := s.knownPeers.insert peerId (f info) }

/-- `PeerManager::removePeer`. -/
def removePeer (s : PeerManager) (peerId : Str) : PeerManager :=
  { s with knownPeers := s.knownPeers.erase peerId }

/-- `PeerManager::updatePeerSeen`. -/
def updatePeerSeen (s : PeerManager) (now : UInt64) (peerId : Str) : PeerManager :=
  s.change peerId (fun info => { info with lastSeen := now, isActive := true })

/-- `PeerManager::updatePeerLatency`. -/
def updatePeerLatency (s : PeerManager) (peerId : Str) (latency : UInt64) : PeerManager :=
  s.change peerId (fun info => { info with latency := (info.latency + latency) / 2 })

/-- The body of `PeerManager::banPeer`. -/
def ban (s : PeerManager) (peerId : Str) : PeerManager :=
  { s with
    bannedPeers := s.bannedPeers.insert peerId
    knownPeers := s.knownPeers.erase peerId }

/-- `PeerManager::unbanPeer`. -/
def unbanPeer (s : PeerManager) (peerId : Str) : PeerManager :=
  { s with bannedPeers := s.bannedPeers.erase peerId }

/-- `PeerManager::isBanned`. -/
def isBanned (s : PeerManager) (peerId : Str) : Bool := s.bannedPeers.contains peerId

/-- `PeerManager::getPeer`. -/
def getPeer (s : PeerManager) (peerId : Str) : PeerInfo :=
  s.knownPeers[peerId]?.getD PeerInfo.empty

/-- `PeerManager::getActivePeers`. -/
def getActivePeers (s : PeerManager) : List PeerInfo :=
  s.knownPeers.values.filter PeerInfo.isActive

/-- The order of `getBestPeers`. -/
def better (a b : PeerInfo) : Bool :=
  if a.score ≠ b.score then b.score < a.score else a.latency ≤ b.latency

/-- `PeerManager::getBestPeers`. -/
def getBestPeers (s : PeerManager) (count : Nat) : List PeerInfo :=
  (s.getActivePeers.mergeSort better).take count

/-- `PeerManager::getPeerCount`. -/
def getPeerCount (s : PeerManager) : Nat := s.knownPeers.size

/-- `PeerManager::cleanupInactivePeers`. -/
def cleanupInactivePeers (s : PeerManager) (now maxInactiveMs : UInt64) : PeerManager :=
  { s with
    knownPeers := s.knownPeers.filter (fun _ info => now - info.lastSeen ≤ maxInactiveMs) }

/-- The text of a peer in `PeerManager::serialize`. -/
def writePeer (e : Str × PeerInfo) : Str :=
  e.1 ++ colon :: e.2.address ++ colon :: decimalInt e.2.port.toInt ++
    colon :: decimal e.2.lastSeen.toNat ++ colon :: decimalInt e.2.score.toInt ++ [bar]

/-- `PeerManager::serialize`. -/
def serialize (s : PeerManager) : Str := s.knownPeers.toList.flatMap writePeer

/-- The loop body of `PeerManager::deserialize`; a number that cannot be read is thrown. -/
def readPeer (now : UInt64) (entry : Str) : Call PeerManager Unit :=
  let id := getline colon entry
  let addr := getline colon id.2
  let portStr := getline colon addr.2
  let lastSeenStr := getline colon portStr.2
  let scoreStr := getline colon lastSeenStr.2
  if entry = [] ∨ id.1 = [] ∨ addr.1 = [] then pure ()
  else do
    let port ← ofOption (stoi portStr.1)
    let lastSeen ← ofOption (stoull lastSeenStr.1)
    let score ← ofOption (stoi scoreStr.1)
    let info := { PeerInfo.create now id.1 addr.1 port with lastSeen := lastSeen, score := score }
    write (fun s => { s with knownPeers := s.knownPeers.insert id.1 info })

/-! ## Methods -/

/-- `PeerManager::banPeer`. -/
def banPeer (peerId : Str) : Call PeerManager Unit := lockGuard (write (·.ban peerId))

/-- `PeerManager::adjustPeerScore`. -/
def adjustPeerScore (peerId : Str) (delta : Int32) : Call PeerManager Unit :=
  lockGuard do
    let found ← read (fun s => s.knownPeers[peerId]?)
    match found with
    | none => pure ()
    | some info =>
      write (·.change peerId (fun info => { info with score := info.score + delta }))
      if info.score + delta < -100 then banPeer peerId

/-- `PeerManager::deserialize`. -/
def deserialize (now : UInt64) (data : Str) : Call PeerManager Unit :=
  lockGuard ((getlines bar data.length data).forM (readPeer now))

/-- A call of a public method, with the clock that it reads. -/
inductive Method where
  | addPeer (now : UInt64) (peerId address : Str) (port : Int32)
  | removePeer (peerId : Str)
  | updatePeerSeen (now : UInt64) (peerId : Str)
  | updatePeerLatency (peerId : Str) (latency : UInt64)
  | adjustPeerScore (peerId : Str) (delta : Int32)
  | banPeer (peerId : Str)
  | unbanPeer (peerId : Str)
  | isBanned (peerId : Str)
  | getPeer (peerId : Str)
  | getActivePeers
  | getBestPeers (count : Nat)
  | getPeerCount
  | cleanupInactivePeers (now maxInactiveMs : UInt64)
  | serialize
  | deserialize (now : UInt64) (data : Str)

/-- A method runs; what it returns is dropped. -/
def perform : Method → Call PeerManager Unit
  | .addPeer now peerId address port => lockGuard (write (·.addPeer now peerId address port))
  | .removePeer peerId => lockGuard (write (·.removePeer peerId))
  | .updatePeerSeen now peerId => lockGuard (write (·.updatePeerSeen now peerId))
  | .updatePeerLatency peerId latency => lockGuard (write (·.updatePeerLatency peerId latency))
  | .adjustPeerScore peerId delta => adjustPeerScore peerId delta
  | .banPeer peerId => banPeer peerId
  | .unbanPeer peerId => lockGuard (write (·.unbanPeer peerId))
  | .isBanned peerId => do discard (lockGuard (read (·.isBanned peerId)))
  | .getPeer peerId => do discard (lockGuard (read (·.getPeer peerId)))
  | .getActivePeers => do discard (lockGuard (read getActivePeers))
  | .getBestPeers count => do discard (lockGuard (read (·.getBestPeers count)))
  | .getPeerCount => do discard (lockGuard (read getPeerCount))
  | .cleanupInactivePeers now maxInactiveMs =>
    lockGuard (write (·.cleanupInactivePeers now maxInactiveMs))
  | .serialize => do discard (lockGuard (read serialize))
  | .deserialize now data => deserialize now data

theorem balanced_perform (method : Method) : Balanced (perform method) := by
  cases method with
  | adjustPeerScore => exact balanced_lockGuard _
  | deserialize => exact balanced_lockGuard _
  | _ =>
    simp only [perform, banPeer]
    first
      | exact balanced_lockGuard _
      | exact (balanced_lockGuard _).discard

/-! ## Deadlocks -/

theorem quiet_readPeer (now : UInt64) (entry : Str) : Quiet (readPeer now entry) := by
  simp only [readPeer]
  split
  · exact quiet_pure ()
  · refine (quiet_ofOption _).bind fun port => ?_
    refine (quiet_ofOption _).bind fun lastSeen => ?_
    refine (quiet_ofOption _).bind fun score => ?_
    exact quiet_update _

/-- The score of a known peer does not fall below the threshold. -/
def KeepsScore (s : PeerManager) (peerId : Str) (delta : Int32) : Prop :=
  ∀ info, s.knownPeers[peerId]? = some info → ¬ info.score + delta < -100

theorem adjustPeerScore_ne_deadlock_iff {s : Guarded PeerManager} (hfree : s.locked = false)
    (peerId : Str) (delta : Int32) :
    adjustPeerScore peerId delta s ≠ .deadlock ↔ KeepsScore s.state peerId delta := by
  rw [adjustPeerScore, ne_eq, lockGuard_eq_deadlock_iff _ hfree, read_bind]
  cases hpeer : s.state.knownPeers[peerId]? with
  | none =>
    apply iff_of_true (quiet_pure () _)
    intro info hinfo
    rw [hpeer] at hinfo
    cases hinfo
  | some info =>
    show ¬ (write _ >>= fun _ => _) _ = _ ↔ _
    rw [write_bind]
    by_cases hscore : info.score + delta < -100
    · rw [if_pos hscore, banPeer, lockGuard_locked _ rfl]
      exact iff_of_false (fun h => h rfl) (fun h => h info hpeer hscore)
    · rw [if_neg hscore]
      apply iff_of_true (quiet_pure () _)
      intro info' hinfo'
      rw [hpeer] at hinfo'
      rwa [← Option.some.inj hinfo']

/-- A method does not wait for itself. -/
def Safe (s : PeerManager) : Method → Prop
  | .adjustPeerScore peerId delta => KeepsScore s peerId delta
  | _ => True

theorem unblocked_perform {method : Method}
    (h : ∀ peerId delta, method ≠ .adjustPeerScore peerId delta) : Unblocked (perform method) := by
  cases method with
  | adjustPeerScore peerId delta => exact absurd rfl (h peerId delta)
  | deserialize now data => exact (Quiet.forM (quiet_readPeer now) _).lockGuard
  | _ =>
    simp only [perform, banPeer]
    first
      | exact unblocked_write _
      | exact (unblocked_read _).discard

theorem noDeadlock_iff {s : Guarded PeerManager} (hfree : s.locked = false) (method : Method) :
    NoDeadlock perform s method ↔ Safe s.state method := by
  cases method with
  | adjustPeerScore peerId delta => exact adjustPeerScore_ne_deadlock_iff hfree peerId delta
  | _ => exact iff_of_true (unblocked_perform (fun _ _ h => by cases h) s hfree) trivial

/-- Along a run, no method waits for itself exactly when no score falls below the threshold. -/
theorem along_noDeadlock_iff (maxPeersCount : Nat) (methods : List Method) :
    Along (step perform) (NoDeadlock perform) ⟨false, create maxPeersCount⟩ methods ↔
      Along (step perform) (fun s method => Safe s.state method) ⟨false, create maxPeersCount⟩
        methods :=
  LockGuard.along_noDeadlock_iff (fun _ => True) Safe balanced_perform
    (fun _ hfree _ method => noDeadlock_iff hfree method) (fun _ _ _ _ _ => trivial) rfl trivial
    methods

end PeerManager

end Blackstone.Bank
