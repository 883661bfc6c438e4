import Blackstone.Bank.PeerManager
import Blackstone.Library.OrderedMap

/-!
# The bounds of the peer table

`addPeer` makes room by dropping a peer that is not active. But no method makes a peer inactive,
so a full table grows, and `deserialize` looks neither at the size of the table nor at the banned
peers. Every other method keeps both bounds, so a run keeps them exactly when each `addPeer` of a
new peer finds room and each `deserialize` enters what fits and is not banned
(`bounded_iff`).
-/

namespace Blackstone.Bank

open Delimited LockGuard Call Runs OrderedMap

namespace PeerManager

/-- The peer that `deserialize` enters for an entry, if any; `none` is an exception. -/
def enteredPeer (entry : Str) : Option (Option Str) :=
  let id := getline colon entry
  let addr := getline colon id.2
  let portStr := getline colon addr.2
  let lastSeenStr := getline colon portStr.2
  let scoreStr := getline colon lastSeenStr.2
  if entry = [] ∨ id.1 = [] ∨ addr.1 = [] then some none
  else if (stoi portStr.1).isSome && (stoull lastSeenStr.1).isSome && (stoi scoreStr.1).isSome then
    some (some id.1)
  else none

/-- The peers that are entered before an exception ends the loop. -/
def enteredPeers : List Str → List Str
  | [] => []
  | entry :: entries =>
    match enteredPeer entry with
    | none => []
    | some none => enteredPeers entries
    | some (some id) => id :: enteredPeers entries

/-- The peers that `deserialize` enters. -/
def entered (data : Str) : List Str := enteredPeers (getlines bar data.length data)

/-- A call that changes the table. -/
inductive TableCall where
  | addPeer (now : UInt64) (peerId address : Str) (port : Int32)
  | removePeer (peerId : Str)
  | banPeer (peerId : Str)
  | unbanPeer (peerId : Str)
  | cleanupInactivePeers (now maxInactiveMs : UInt64)
  | updatePeerSeen (now : UInt64) (peerId : Str)
  | deserialize (now : UInt64) (data : Str)

def TableCall.method : TableCall → Method
  | .addPeer now peerId address port => .addPeer now peerId address port
  | .removePeer peerId => .removePeer peerId
  | .banPeer peerId => .banPeer peerId
  | .unbanPeer peerId => .unbanPeer peerId
  | .cleanupInactivePeers now maxInactiveMs => .cleanupInactivePeers now maxInactiveMs
  | .updatePeerSeen now peerId => .updatePeerSeen now peerId
  | .deserialize now data => .deserialize now data

/-- The peers after a call. -/
def after (s : PeerManager) (call : TableCall) : PeerManager :=
  (LockGuard.step perform ⟨false, s⟩ call.method).state

/-- At most `maxPeers` peers are known, and none of them is banned. -/
structure Bounded (s : PeerManager) : Prop where
  size_le : s.knownPeers.size ≤ s.maxPeers
  not_banned : ∀ id ∈ s.knownPeers, s.isBanned id = false

/-- A call finds room for the peers that it enters, and enters none that is banned. -/
def Fits (s : PeerManager) : TableCall → Prop
  | .addPeer _ peerId _ _ =>
    s.isBanned peerId = true ∨ peerId ∈ s.knownPeers ∨ s.knownPeers.size < s.maxPeers
  | .deserialize _ data =>
    (∀ id ∈ entered data, s.isBanned id = false) ∧
      (s.knownPeers.keys ++ entered data).dedup.length ≤ s.maxPeers
  | _ => True

/-- Every known peer is active. -/
def Active (s : PeerManager) : Prop :=
  ∀ (id : Str) (info : PeerInfo), s.knownPeers[id]? = some info → info.isActive = true

/-! ## What `deserialize` enters -/

/-- The known peers are those before and some more. -/
structure Enters (ids : List Str) (s t : PeerManager) : Prop where
  banned : t.bannedPeers = s.bannedPeers
  maxPeers : t.maxPeers = s.maxPeers
  known : ∀ id, id ∈ t.knownPeers ↔ id ∈ s.knownPeers ∨ id ∈ ids
  active : s.Active → t.Active

theorem Enters.nil (s : PeerManager) : Enters [] s s where
  banned := rfl
  maxPeers := rfl
  known id := by rw [List.mem_nil_iff, or_false]
  active h := h

theorem Active.insert {s : PeerManager} (h : s.Active) {id : Str} {info : PeerInfo}
    (hinfo : info.isActive = true) :
    Active { s with knownPeers := s.knownPeers.insert id info } := by
  intro id' info' hlookup
  rw [getElem?_insert_eq] at hlookup
  split_ifs at hlookup with hid
  · rwa [← Option.some.inj hlookup]
  · exact h id' info' hlookup

theorem Enters.cons {ids : List Str} {s t : PeerManager} {id : Str} {info : PeerInfo}
    (hinfo : info.isActive = true)
    (h : Enters ids { s with knownPeers := s.knownPeers.insert id info } t) :
    Enters (id :: ids) s t where
  banned := h.banned
  maxPeers := h.maxPeers
  known id' := by
    rw [h.known, mem_insert_iff, List.mem_cons, or_comm (a := id = id'), or_assoc,
      eq_comm (a := id)]
  active hactive := h.active (hactive.insert hinfo)

theorem readPeer_cases (now : UInt64) (entry : Str) (s : Guarded PeerManager) :
    enteredPeer entry = none ∧ readPeer now entry s = .threw s ∨
      enteredPeer entry = some none ∧ readPeer now entry s = .returned () s ∨
      ∃ id, ∃ info : PeerInfo, info.isActive = true ∧ enteredPeer entry = some (some id) ∧
        readPeer now entry s = .returned ()
          ⟨s.locked, { s.state with knownPeers := s.state.knownPeers.insert id info }⟩ := by
  simp only [enteredPeer, readPeer]
  generalize getline colon entry = id
  generalize getline colon id.2 = addr
  generalize getline colon addr.2 = portStr
  generalize getline colon portStr.2 = lastSeenStr
  generalize getline colon lastSeenStr.2 = scoreStr
  by_cases hskip : entry = [] ∨ id.1 = [] ∨ addr.1 = []
  · rw [if_pos hskip, if_pos hskip]
    exact Or.inr (Or.inl ⟨rfl, rfl⟩)
  · rw [if_neg hskip, if_neg hskip]
    cases stoi portStr.1 with
    | none => exact Or.inl ⟨rfl, rfl⟩
    | some port =>
      cases stoull lastSeenStr.1 with
      | none => exact Or.inl ⟨rfl, rfl⟩
      | some lastSeen =>
        cases stoi scoreStr.1 with
        | none => exact Or.inl ⟨rfl, rfl⟩
        | some score => exact Or.inr (Or.inr ⟨id.1, _, rfl, rfl, rfl⟩)

theorem enters_forM (now : UInt64) (entries : List Str) (s t : Guarded PeerManager)
    (h : ((entries.forM (readPeer now)) s).after? = some t) :
    Enters (enteredPeers entries) s.state t.state := by
  induction entries generalizing s with
  | nil =>
    rw [← Option.some.inj h]
    exact Enters.nil s.state
  | cons entry entries ih =>
    change ((readPeer now entry >>= fun _ => entries.forM (readPeer now)) s).after? = some t at h
    rw [bind_apply] at h
    rw [enteredPeers]
    rcases readPeer_cases now entry s with
      ⟨hentered, hread⟩ | ⟨hentered, hread⟩ | ⟨id, info, hinfo, hentered, hread⟩
    · rw [hread] at h
      rw [hentered, ← Option.some.inj h]
      exact Enters.nil s.state
    · rw [hread] at h
      rw [hentered]
      exact ih s h
    · rw [hread] at h
      rw [hentered]
      exact (ih _ h).cons hinfo

/-- What `deserialize` enters before it returns or throws. -/
theorem enters_deserialize (s : PeerManager) (now : UInt64) (data : Str) :
    Enters (entered data) s (after s (.deserialize now data)) := by
  have henters := enters_forM now (getlines bar data.length data) ⟨true, s⟩
  have hquiet := Quiet.forM (quiet_readPeer now) (getlines bar data.length data) ⟨true, s⟩
  simp only [after, TableCall.method, LockGuard.step, perform, deserialize, lockGuard,
    Bool.false_eq_true, if_false]
  cases hend : (getlines bar data.length data).forM (readPeer now) ⟨true, s⟩ with
  | deadlock => exact absurd hend hquiet
  | threw t => exact henters t (by rw [hend]; rfl)
  | returned result t => exact henters t (by rw [hend]; rfl)

/-! ## One call -/

/-- A table in which every peer is active is not made smaller. -/
theorem makeRoom_eq {s : PeerManager} (h : s.Active) : makeRoom s.knownPeers = s.knownPeers := by
  have hnone : s.knownPeers.toList.find? (fun e => !e.2.isActive) = none := by
    rw [List.find?_eq_none]
    rintro ⟨id, info⟩ hmem hinactive
    rw [h id info (Std.TreeMap.mem_toList_iff_getElem?_eq_some.mp hmem)] at hinactive
    cases hinactive
  rw [makeRoom, hnone]

theorem enters_addPeer {s : PeerManager} (h : s.Active) {peerId : Str}
    (hfree : s.isBanned peerId = false) (now : UInt64) (address : Str) (port : Int32) :
    Enters [peerId] s (s.addPeer now peerId address port) := by
  have hroom : (if s.maxPeers ≤ s.knownPeers.size then makeRoom s.knownPeers
      else s.knownPeers) = s.knownPeers := by
    rw [makeRoom_eq h, ite_self]
  rw [isBanned] at hfree
  rw [addPeer, hfree, if_neg Bool.false_ne_true]
  simp only [hroom]
  cases s.knownPeers[peerId]? with
  | none => exact (Enters.nil _).cons rfl
  | some info => exact (Enters.nil _).cons rfl

theorem enters_updatePeerSeen (s : PeerManager) (now : UInt64) (peerId : Str) :
    Enters [] s (s.updatePeerSeen now peerId) := by
  rw [updatePeerSeen, change]
  cases hlookup : s.knownPeers[peerId]? with
  | none => exact Enters.nil s
  | some info =>
    have hknown : peerId ∈ s.knownPeers :=
      Std.TreeMap.mem_iff_isSome_getElem?.mpr (by rw [hlookup]; rfl)
    refine ⟨rfl, rfl, fun id => ?_, fun h => h.insert rfl⟩
    rw [mem_insert_iff, List.mem_nil_iff, or_false, or_iff_right_of_imp]
    rintro rfl
    exact hknown

/-- The bounds where peers are entered. -/
theorem Enters.bounded_iff_fits {ids : List Str} {s t : PeerManager} (h : Enters ids s t)
    (hs : s.Bounded) :
    t.Bounded ↔ (∀ id ∈ ids, s.isBanned id = false) ∧
      (s.knownPeers.keys ++ ids).dedup.length ≤ s.maxPeers := by
  have hsize : t.knownPeers.size = (s.knownPeers.keys ++ ids).dedup.length := by
    apply size_eq_of_keys
    intro id
    rw [h.known, List.mem_append, Std.TreeMap.mem_keys]
  have hbanned : ∀ id, t.isBanned id = s.isBanned id := fun id => by
    rw [isBanned, isBanned, h.banned]
  constructor
  · rintro ⟨hle, hnot⟩
    refine ⟨fun id hid => ?_, ?_⟩
    · rw [← hbanned]
      exact hnot id ((h.known id).mpr (Or.inr hid))
    · rwa [← hsize, ← h.maxPeers]
  · rintro ⟨hnot, hle⟩
    refine ⟨?_, fun id hid => ?_⟩
    · rwa [hsize, h.maxPeers]
    · rw [hbanned]
      rcases (h.known id).mp hid with hold | hnew
      · exact hs.not_banned id hold
      · exact hnot id hnew

/-- The known peers are some of those before, and the bounds hold still. -/
structure Drops (s t : PeerManager) : Prop where
  maxPeers : t.maxPeers = s.maxPeers
  size_le : t.knownPeers.size ≤ s.knownPeers.size
  known : ∀ (id : Str) (info : PeerInfo), t.knownPeers[id]? = some info →
    s.knownPeers[id]? = some info
  not_banned : ∀ id ∈ t.knownPeers, s.isBanned id = false → t.isBanned id = false

theorem Drops.active {s t : PeerManager} (h : Drops s t) (hs : s.Active) : t.Active :=
  fun id info hlookup => hs id info (h.known id info hlookup)

theorem Drops.bounded {s t : PeerManager} (h : Drops s t) (hs : s.Bounded) : t.Bounded where
  size_le := by
    rw [h.maxPeers]
    exact h.size_le.trans hs.size_le
  not_banned id hid := by
    refine h.not_banned id hid (hs.not_banned id ?_)
    rw [Std.TreeMap.mem_iff_isSome_getElem?, Option.isSome_iff_exists] at hid ⊢
    obtain ⟨info, hlookup⟩ := hid
    exact ⟨info, h.known id info hlookup⟩

theorem drops_removePeer (s : PeerManager) (peerId : Str) : Drops s (s.removePeer peerId) where
  maxPeers := rfl
  size_le := Std.TreeMap.size_erase_le
  known id info hlookup := by
    rw [removePeer, getElem?_erase_eq] at hlookup
    split_ifs at hlookup
    exact hlookup
  not_banned _ _ h := h

theorem drops_ban (s : PeerManager) (peerId : Str) : Drops s (s.ban peerId) where
  maxPeers := rfl
  size_le := Std.TreeMap.size_erase_le
  known := (drops_removePeer s peerId).known
  not_banned id hid h := by
    have hne : compare peerId id ≠ .eq := by
      rw [ne_eq, Std.LawfulEqOrd.compare_eq_iff_eq]
      exact (mem_erase_iff.mp hid).1
    rw [isBanned] at h
    rw [isBanned, ban, Std.TreeSet.contains_insert, h, Bool.or_false, beq_eq_false_iff_ne]
    exact hne

theorem drops_unbanPeer (s : PeerManager) (peerId : Str) : Drops s (s.unbanPeer peerId) where
  maxPeers := rfl
  size_le := le_rfl
  known _ _ h := h
  not_banned id _ h := by
    rw [isBanned] at h
    rw [isBanned, unbanPeer, Std.TreeSet.contains_erase, h, Bool.and_false]

theorem drops_cleanupInactivePeers (s : PeerManager) (now maxInactiveMs : UInt64) :
    Drops s (s.cleanupInactivePeers now maxInactiveMs) where
  maxPeers := rfl
  size_le := Std.TreeMap.size_filter_le_size
  known id info hlookup := by
    rw [cleanupInactivePeers, Std.TreeMap.getElem?_filter] at hlookup
    exact Option.eq_some_of_pfilter_eq_some hlookup
  not_banned _ _ h := h

/-- A call keeps the bounds exactly when it finds room. -/
theorem bounded_after_iff {s : PeerManager} (hactive : s.Active) (hs : s.Bounded)
    (call : TableCall) : (after s call).Bounded ↔ Fits s call := by
  cases call with
  | addPeer now peerId address port =>
    show (s.addPeer now peerId address port).Bounded ↔ _
    cases hbanned : s.isBanned peerId with
    | true =>
      have hsame : s.addPeer now peerId address port = s := if_pos hbanned
      rw [hsame]
      exact iff_of_true hs (Or.inl hbanned)
    | false =>
      rw [(enters_addPeer hactive hbanned now address port).bounded_iff_fits hs, Fits, hbanned,
        List.forall_mem_singleton, ← size_insert_eq s.knownPeers peerId PeerInfo.empty,
        Std.TreeMap.size_insert]
      have hle := hs.size_le
      by_cases hknown : peerId ∈ s.knownPeers
      · rw [if_pos (Std.TreeMap.mem_iff_contains.mp hknown)]
        exact iff_of_true ⟨hbanned, hle⟩ (Or.inr (Or.inl hknown))
      · rw [if_neg (fun h => hknown (Std.TreeMap.mem_iff_contains.mpr h))]
        simp only [hbanned, hknown, Bool.false_eq_true, true_and, false_or, Nat.succ_le_iff]
  | removePeer peerId => exact iff_of_true ((drops_removePeer s peerId).bounded hs) trivial
  | banPeer peerId => exact iff_of_true ((drops_ban s peerId).bounded hs) trivial
  | unbanPeer peerId => exact iff_of_true ((drops_unbanPeer s peerId).bounded hs) trivial
  | cleanupInactivePeers now maxInactiveMs =>
    exact iff_of_true ((drops_cleanupInactivePeers s now maxInactiveMs).bounded hs) trivial
  | updatePeerSeen now peerId =>
    show (s.updatePeerSeen now peerId).Bounded ↔ _
    rw [(enters_updatePeerSeen s now peerId).bounded_iff_fits hs, List.append_nil,
      List.Nodup.dedup Std.TreeMap.nodup_keys, Std.TreeMap.length_keys]
    exact iff_of_true ⟨fun id hid => absurd hid List.not_mem_nil, hs.size_le⟩ trivial
  | deserialize now data => exact (enters_deserialize s now data).bounded_iff_fits hs

theorem active_after {s : PeerManager} (h : s.Active) (call : TableCall) :
    (after s call).Active := by
  cases call with
  | addPeer now peerId address port =>
    show (s.addPeer now peerId address port).Active
    cases hbanned : s.isBanned peerId with
    | true =>
      have hsame : s.addPeer now peerId address port = s := if_pos hbanned
      rwa [hsame]
    | false => exact (enters_addPeer h hbanned now address port).active h
  | removePeer peerId => exact (drops_removePeer s peerId).active h
  | banPeer peerId => exact (drops_ban s peerId).active h
  | unbanPeer peerId => exact (drops_unbanPeer s peerId).active h
  | cleanupInactivePeers now maxInactiveMs =>
    exact (drops_cleanupInactivePeers s now maxInactiveMs).active h
  | updatePeerSeen now peerId => exact (enters_updatePeerSeen s now peerId).active h
  | deserialize now data => exact (enters_deserialize s now data).active h

/-! ## Runs -/

theorem active_create (maxPeersCount : Nat) : (create maxPeersCount).Active := by
  intro id info hlookup
  rw [create, Std.TreeMap.getElem?_emptyc] at hlookup
  cases hlookup

theorem bounded_create (maxPeersCount : Nat) : (create maxPeersCount).Bounded where
  size_le := Nat.zero_le _
  not_banned _ hid := absurd hid Std.TreeMap.not_mem_emptyc

/-- Every state of a run keeps the bounds exactly when each call finds room for the peers that
it enters. -/
theorem bounded_iff (maxPeersCount : Nat) (calls : List TableCall) :
    (∀ n, (run after (create maxPeersCount) (calls.take n)).Bounded) ↔
      Along after Fits (create maxPeersCount) calls := by
  rw [forall_run_take_iff, and_iff_right (bounded_create maxPeersCount)]
  apply along_congr_of_invariant (fun s => s.Active ∧ s.Bounded)
  · rintro s call ⟨hactive, hs⟩
    exact bounded_after_iff hactive hs call
  · rintro s call ⟨hactive, -⟩ hbounded
    exact ⟨active_after hactive call, hbounded⟩
  · exact ⟨active_create maxPeersCount, bounded_create maxPeersCount⟩

/-- Two peers are added to a table for one. -/
theorem size_second_peer :
    (run after (create 1) [.addPeer 0 [97] [120] 1, .addPeer 0 [98] [120] 1]).knownPeers.size =
        2 ∧ ¬ (run after (create 1)
          [.addPeer 0 [97] [120] 1, .addPeer 0 [98] [120] 1]).Bounded := by
  have hsize : (run after (create 1)
      [.addPeer 0 [97] [120] 1, .addPeer 0 [98] [120] 1]).knownPeers.size = 2 := by decide
  refine ⟨hsize, fun h => ?_⟩
  have hle := h.size_le
  rw [hsize] at hle
  exact absurd hle (by decide)

end PeerManager

end Blackstone.Bank
