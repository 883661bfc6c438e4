import Blackstone.Bank.PeerTables
import Blackstone.Library.OrderedMap

/-!
# The connection pool

`connection_pool.cpp`. A connection to a peer that is in the pool already replaces the old one:
its socket is never closed, and `activeCount` counts one connection too many. Along a run with
different sockets the pool counts its connections and closes every socket that it has accepted
once, exactly when no peer is accepted twice (`ownsSockets_iff`).
-/

namespace Blackstone.Bank

open OrderedMap Runs

/-- `Connection`. -/
structure Connection where
  socket : Socket
  peerId : Str
  createdAt : UInt64
  lastUsed : UInt64
  isActive : Bool

/-- `ConnectionPool`. -/
structure ConnectionPool where
  connections : Std.TreeMap Str Connection
  availableConnections : List Str
  maxConnections : UInt64
  activeCount : UInt64

namespace ConnectionPool

/-- The constructor. -/
def create (maxConn : UInt64) : ConnectionPool where
  connections := ∅
  availableConnections := []
  maxConnections := maxConn
  activeCount := 0

/-- `ConnectionPool::addConnection`. -/
def addConnection (s : ConnectionPool) (now : UInt64) (peerId : Str) (sock : Socket) :
    Bool × ConnectionPool :=
  if s.maxConnections.toNat ≤ s.connections.size then (false, s)
  else
    let conn : Connection := ⟨sock, peerId, now, now, true⟩
    (true,
      { s with
        connections := s.connections.insert peerId conn
        availableConnections := s.availableConnections ++ [peerId]
        activeCount := s.activeCount + 1 })

/-- `ConnectionPool::removeConnection`, with the sockets that it closes. -/
def removeConnection (s : ConnectionPool) (peerId : Str) : Bool × List Socket × ConnectionPool :=
  match s.connections[peerId]? with
  | none => (false, [], s)
  | some conn =>
    (true, [conn.socket],
      { s with
        connections := s.connections.erase peerId
        activeCount := s.activeCount - 1 })

/-- Replaces the connection to a peer. -/
def update (s : ConnectionPool) (peerId : Str) (conn : Connection) : ConnectionPool :=
  { s with connections := s.connections.insert peerId conn }

/-- `ConnectionPool::getConnection`; `none` is the invalid socket. -/
def getConnection (s : ConnectionPool) (now : UInt64) (peerId : Str) :
    Option Socket × ConnectionPool :=
  match s.connections[peerId]? with
  | none => (none, s)
  | some conn => (some conn.socket, s.update peerId { conn with lastUsed := now })

/-- `ConnectionPool::acquireConnection`. -/
def acquireConnection (s : ConnectionPool) (now : UInt64) (peerId : Str) :
    Option Socket × ConnectionPool :=
  match s.connections[peerId]? with
  | none => (none, s)
  | some conn =>
    if conn.isActive then (some conn.socket, s.update peerId { conn with lastUsed := now })
    else (none, s)

/-- `ConnectionPool::releaseConnection`. -/
def releaseConnection (s : ConnectionPool) (now : UInt64) (peerId : Str) : ConnectionPool :=
  match s.connections[peerId]? with
  | none => s
  | some conn =>
    { s.update peerId { conn with isActive := true, lastUsed := now } with
      availableConnections := s.availableConnections ++ [peerId] }

/-- `ConnectionPool::size`. -/
def size (s : ConnectionPool) : UInt64 := UInt64.ofNat s.connections.size

/-- `ConnectionPool::getActiveCount`. -/
def getActiveCount (s : ConnectionPool) : UInt64 := s.activeCount

/-- The test of `cleanupIdleConnections`. -/
def isIdle (now idleTimeoutMs : UInt64) (conn : Connection) : Bool :=
  idleTimeoutMs < now - conn.lastUsed

/-- The sockets of a list of entries. -/
def sockets (entries : List (Str × Connection)) : List Socket := entries.map (fun e => e.2.socket)

/-- `ConnectionPool::cleanupIdleConnections`, with the sockets that it closes. -/
def cleanupIdleConnections (s : ConnectionPool) (now idleTimeoutMs : UInt64) :
    List Socket × ConnectionPool :=
  let idle := s.connections.toList.filter (fun e => isIdle now idleTimeoutMs e.2)
  (sockets idle,
    { s with
      connections := s.connections.filter (fun _ conn => !isIdle now idleTimeoutMs conn)
      activeCount := s.activeCount - UInt64.ofNat idle.length })

/-- `ConnectionPool::closeAll`, with the sockets that it closes. -/
def closeAll (s : ConnectionPool) : List Socket × ConnectionPool :=
  (sockets s.connections.toList,
    { s with
      connections := ∅
      availableConnections := []
      activeCount := 0 })

/-! ## Runs -/

/-- A call of a method of the pool, with the clock that it reads. -/
inductive Method where
  | addConnection (now : UInt64) (peerId : Str) (sock : Socket)
  | removeConnection (peerId : Str)
  | getConnection (now : UInt64) (peerId : Str)
  | acquireConnection (now : UInt64) (peerId : Str)
  | releaseConnection (now : UInt64) (peerId : Str)
  | cleanupIdleConnections (now idleTimeoutMs : UInt64)
  | closeAll

/-- A pool with the sockets that it has accepted and closed so far. -/
structure Owner where
  pool : ConnectionPool
  accepted : List Socket
  closed : List Socket

/-- A new pool. -/
def Owner.create (maxConn : UInt64) : Owner := ⟨ConnectionPool.create maxConn, [], []⟩

/-- The pool after a call. -/
def Owner.step (s : Owner) : Method → Owner
  | .addConnection now peerId sock =>
    let r := s.pool.addConnection now peerId sock
    { s with pool := r.2, accepted := if r.1 then sock :: s.accepted else s.accepted }
  | .removeConnection peerId =>
    let r := s.pool.removeConnection peerId
    { s with pool := r.2.2, closed := r.2.1 ++ s.closed }
  | .getConnection now peerId => { s with pool := (s.pool.getConnection now peerId).2 }
  | .acquireConnection now peerId => { s with pool := (s.pool.acquireConnection now peerId).2 }
  | .releaseConnection now peerId => { s with pool := s.pool.releaseConnection now peerId }
  | .cleanupIdleConnections now idleTimeoutMs =>
    let r := s.pool.cleanupIdleConnections now idleTimeoutMs
    { s with pool := r.2, closed := r.1 ++ s.closed }
  | .closeAll =>
    let r := s.pool.closeAll
    { s with pool := r.2, closed := r.1 ++ s.closed }

/-- The socket that a call hands to the pool. -/
def Method.sock : Method → Option Socket
  | .addConnection _ _ sock => some sock
  | _ => none

/-- The pool counts its connections, and at the end every socket that it has accepted is closed
once. -/
structure OwnsSockets (maxConn : UInt64) (methods : List Method) : Prop where
  counted : ∀ n,
    let s := run Owner.step (Owner.create maxConn) ((methods ++ [Method.closeAll]).take n)
    s.pool.getActiveCount = s.pool.size
  closed_once :
    let s := run Owner.step (Owner.create maxConn) (methods ++ [Method.closeAll])
    ∀ sock ∈ s.accepted, s.closed.count sock = 1

/-- A connection is accepted only for a peer that is not in the pool. -/
def NewPeer (s : Owner) : Method → Prop
  | .addConnection _ peerId _ =>
    s.pool.connections.size < s.pool.maxConnections.toNat → s.pool.connections[peerId]? = none
  | _ => True

/-! ## The sockets of the pool -/

section Sockets

variable {connections : Std.TreeMap Str Connection} {peerId : Str} {conn : Connection}

theorem sockets_insert_perm (hnew : connections[peerId]? = none) (conn : Connection) :
    (sockets (connections.insert peerId conn).toList).Perm
      (conn.socket :: sockets connections.toList) :=
  ((toList_insert_perm connections peerId conn).trans
    ((toList_erase_of_none hnew).cons _)).map _

theorem sockets_perm_erase (hlookup : connections[peerId]? = some conn) :
    (sockets connections.toList).Perm
      (conn.socket :: sockets (connections.erase peerId).toList) :=
  (toList_perm_erase hlookup).map _

/-- A connection that is changed keeps its socket. -/
theorem sockets_update_perm (hlookup : connections[peerId]? = some conn) {conn' : Connection}
    (hsocket : conn'.socket = conn.socket) :
    (sockets (connections.insert peerId conn').toList).Perm (sockets connections.toList) := by
  refine ((toList_insert_perm connections peerId conn').map _).trans ?_
  refine List.Perm.trans ?_ (sockets_perm_erase hlookup).symm
  rw [List.map_cons, hsocket]
  rfl

theorem size_update (hlookup : connections[peerId]? = some conn) (conn' : Connection) :
    (connections.insert peerId conn').size = connections.size := by
  have hmem : connections.contains peerId = true := by
    rw [Std.TreeMap.contains_eq_isSome_getElem?, hlookup]
    rfl
  rw [Std.TreeMap.size_insert, if_pos hmem]

end Sockets

/-! ## One call -/

/-- The counter agrees with the map. -/
def Counted (s : Owner) : Prop := s.pool.getActiveCount = s.pool.size

/-- The sockets that were accepted are those in the pool and those that were closed. -/
def Conserved (s : Owner) : Prop :=
  (sockets s.pool.connections.toList ++ s.closed).Perm s.accepted

/-- A pool with the same sockets, and as many connections as before. -/
structure Keeps (p q : ConnectionPool) : Prop where
  sockets : (sockets q.connections.toList).Perm (sockets p.connections.toList)
  size : q.connections.size = p.connections.size
  activeCount : q.activeCount = p.activeCount

theorem Keeps.refl (p : ConnectionPool) : Keeps p p := ⟨List.Perm.refl _, rfl, rfl⟩

theorem keeps_update {p : ConnectionPool} {peerId : Str} {conn conn' : Connection}
    (hlookup : p.connections[peerId]? = some conn) (hsocket : conn'.socket = conn.socket) :
    Keeps p (p.update peerId conn') :=
  ⟨sockets_update_perm hlookup hsocket, size_update hlookup conn', rfl⟩

theorem keeps_getConnection (p : ConnectionPool) (now : UInt64) (peerId : Str) :
    Keeps p (p.getConnection now peerId).2 := by
  rw [getConnection]
  cases hlookup : p.connections[peerId]? with
  | none => exact Keeps.refl p
  | some conn => exact keeps_update hlookup rfl

theorem keeps_acquireConnection (p : ConnectionPool) (now : UInt64) (peerId : Str) :
    Keeps p (p.acquireConnection now peerId).2 := by
  rw [acquireConnection]
  cases hlookup : p.connections[peerId]? with
  | none => exact Keeps.refl p
  | some conn =>
    dsimp only
    split_ifs
    · exact keeps_update hlookup rfl
    · exact Keeps.refl p

theorem keeps_releaseConnection (p : ConnectionPool) (now : UInt64) (peerId : Str) :
    Keeps p (p.releaseConnection now peerId) := by
  rw [releaseConnection]
  cases hlookup : p.connections[peerId]? with
  | none => exact Keeps.refl p
  | some conn =>
    have h : Keeps p (p.update peerId { conn with isActive := true, lastUsed := now }) :=
      keeps_update hlookup rfl
    exact ⟨h.sockets, h.size, h.activeCount⟩

theorem Keeps.counted {s t : Owner} (h : Keeps s.pool t.pool) (hs : Counted s) : Counted t := by
  rw [Counted, getActiveCount, ConnectionPool.size, h.activeCount, h.size]
  exact hs

theorem Keeps.conserved {s t : Owner} (h : Keeps s.pool t.pool)
    (haccepted : t.accepted = s.accepted) (hclosed : t.closed = s.closed) (hs : Conserved s) : Conserved t := by
  rw [Conserved, haccepted, hclosed]
  exact (h.sockets.append_right _).trans hs

/-- The idle connections and the others are all connections. -/
theorem idle_perm (connections : Std.TreeMap Str Connection) (idle : Connection → Bool) :
    (connections.toList.filter (fun e => idle e.2) ++
      (connections.filter (fun _ conn => !idle conn)).toList).Perm connections.toList := by
  rw [Std.TreeMap.toList_filter]
  exact List.filter_append_perm _ _

theorem counted_addConnection_iff {s : Owner} (h : Counted s) (now : UInt64) (peerId : Str)
    (sock : Socket) : Counted (s.step (.addConnection now peerId sock)) ↔
      NewPeer s (.addConnection now peerId sock) := by
  rw [NewPeer, Owner.step, addConnection]
  by_cases hfull : s.pool.maxConnections.toNat ≤ s.pool.connections.size
  · rw [if_pos hfull]
    exact iff_of_true h (fun hroom => absurd hfull (not_le.mpr hroom))
  · rw [if_neg hfull, forall_prop_of_true (not_le.mp hfull)]
    rw [Counted, getActiveCount, size] at h
    simp only [Counted, getActiveCount, size, Std.TreeMap.size_insert, h,
      Std.TreeMap.contains_eq_isSome_getElem?]
    cases hlookup : s.pool.connections[peerId]? with
    | none =>
      refine iff_of_true ?_ rfl
      rw [Option.isSome_none, if_neg Bool.false_ne_true, UInt64.ofNat_add]
      rfl
    | some conn =>
      refine iff_of_false ?_ (fun hnone => nomatch hnone)
      rw [Option.isSome_some, if_pos rfl, UInt64.add_eq_left]
      decide

/-- Of the counted connections, some are dropped. -/
theorem Counted.activeCount_sub {s : Owner} (h : Counted s) {kept dropped : ℕ}
    (hsize : s.pool.connections.size = kept + dropped) :
    s.pool.activeCount - UInt64.ofNat dropped = UInt64.ofNat kept := by
  rw [Counted, getActiveCount, size, hsize, UInt64.ofNat_add] at h
  rw [h]
  exact UInt64.add_sub_cancel _ _

theorem Counted.removeConnection {s : Owner} (h : Counted s) (peerId : Str) :
    Counted (s.step (.removeConnection peerId)) := by
  rw [Owner.step, ConnectionPool.removeConnection]
  cases hlookup : s.pool.connections[peerId]? with
  | none => exact h
  | some conn =>
    have hsize := (toList_perm_erase hlookup).length_eq
    rw [List.length_cons, Std.TreeMap.length_toList, Std.TreeMap.length_toList] at hsize
    exact h.activeCount_sub hsize

theorem Counted.cleanupIdleConnections {s : Owner} (h : Counted s) (now idleTimeoutMs : UInt64) :
    Counted (s.step (.cleanupIdleConnections now idleTimeoutMs)) := by
  have hsize := (idle_perm s.pool.connections (isIdle now idleTimeoutMs)).length_eq
  rw [List.length_append, Std.TreeMap.length_toList, Std.TreeMap.length_toList, add_comm] at hsize
  exact h.activeCount_sub hsize.symm

theorem counted_step_iff {s : Owner} (h : Counted s) (method : Method) :
    Counted (s.step method) ↔ NewPeer s method := by
  cases method with
  | addConnection now peerId sock => exact counted_addConnection_iff h now peerId sock
  | removeConnection peerId => exact iff_of_true (h.removeConnection peerId) trivial
  | getConnection now peerId =>
    exact iff_of_true ((keeps_getConnection s.pool now peerId).counted h) trivial
  | acquireConnection now peerId =>
    exact iff_of_true ((keeps_acquireConnection s.pool now peerId).counted h) trivial
  | releaseConnection now peerId =>
    exact iff_of_true ((keeps_releaseConnection s.pool now peerId).counted h) trivial
  | cleanupIdleConnections now idleTimeoutMs =>
    exact iff_of_true (h.cleanupIdleConnections now idleTimeoutMs) trivial
  | closeAll => exact iff_of_true rfl trivial

theorem conserved_step {s : Owner} (h : Conserved s) {method : Method} (hnew : NewPeer s method) :
    Conserved (s.step method) := by
  cases method with
  | addConnection now peerId sock =>
    rw [Owner.step, addConnection]
    by_cases hfull : s.pool.maxConnections.toNat ≤ s.pool.connections.size
    · rw [if_pos hfull]
      exact h
    · rw [if_neg hfull]
      have hinsert := sockets_insert_perm (hnew (not_le.mp hfull)) ⟨sock, peerId, now, now, true⟩
      exact (hinsert.append_right s.closed).trans (h.cons sock)
  | removeConnection peerId =>
    rw [Owner.step, removeConnection]
    cases hlookup : s.pool.connections[peerId]? with
    | none => exact h
    | some conn =>
      refine List.Perm.trans ?_ (((sockets_perm_erase hlookup).append_right s.closed).symm.trans h)
      exact List.perm_middle
  | getConnection now peerId =>
    exact Keeps.conserved (s := s) (keeps_getConnection s.pool now peerId) rfl rfl h
  | acquireConnection now peerId =>
    exact Keeps.conserved (s := s) (keeps_acquireConnection s.pool now peerId) rfl rfl h
  | releaseConnection now peerId =>
    exact Keeps.conserved (s := s) (keeps_releaseConnection s.pool now peerId) rfl rfl h
  | cleanupIdleConnections now idleTimeoutMs =>
    have hsplit := (idle_perm s.pool.connections (isIdle now idleTimeoutMs)).map
      (fun e => e.2.socket)
    rw [List.map_append] at hsplit
    refine List.Perm.trans ?_ ((hsplit.append_right s.closed).trans h)
    rw [List.append_assoc]
    exact List.perm_append_comm_assoc _ _ _
  | closeAll => exact h

/-! ## Runs -/

theorem accepted_step_sublist (s : Owner) (method : Method) :
    (s.step method).accepted.Sublist (method.sock.toList ++ s.accepted) := by
  cases method with
  | addConnection now peerId sock =>
    show (if (s.pool.addConnection now peerId sock).1 then sock :: s.accepted
      else s.accepted).Sublist (sock :: s.accepted)
    split_ifs
    · exact List.Sublist.refl _
    · exact List.sublist_cons_self sock s.accepted
  | _ => exact List.Sublist.refl _

theorem accepted_sublist (s : Owner) (methods : List Method) :
    (run Owner.step s methods).accepted.Sublist
      ((methods.filterMap Method.sock).reverse ++ s.accepted) := by
  induction methods generalizing s with
  | nil => exact List.Sublist.refl _
  | cons method methods ih =>
    have hrest := (ih (s.step method)).trans
      ((accepted_step_sublist s method).append_left (methods.filterMap Method.sock).reverse)
    rw [List.filterMap_cons]
    cases hsock : method.sock with
    | none =>
      rw [hsock] at hrest
      exact hrest
    | some sock =>
      rw [hsock] at hrest
      rw [List.reverse_cons, List.append_assoc]
      exact hrest

/-- At the end, the sockets that were accepted are those that were closed. -/
theorem closed_perm {s : Owner} (h : Conserved s) {methods : List Method}
    (hnew : Along Owner.step NewPeer s methods) :
    (run Owner.step s (methods ++ [Method.closeAll])).closed.Perm
      (run Owner.step s (methods ++ [Method.closeAll])).accepted := by
  have hstep : ∀ s method, Conserved s → NewPeer s method → Conserved (Owner.step s method) :=
    fun s method h hnew => conserved_step h hnew
  have hrun : Conserved (run Owner.step s methods) := run_invariant hstep h hnew
  rw [run_concat]
  exact hrun

/-- In a run with different sockets, the pool counts its connections and closes each accepted
socket once, exactly when no peer is accepted while it is in the pool. -/
theorem ownsSockets_iff (maxConn : UInt64) (methods : List Method)
    (hdistinct : (methods.filterMap Method.sock).Nodup) :
    OwnsSockets maxConn methods ↔ Along Owner.step NewPeer (Owner.create maxConn) methods := by
  have hcounted : (∀ n, Counted (run Owner.step (Owner.create maxConn)
      ((methods ++ [Method.closeAll]).take n))) ↔
        Along Owner.step NewPeer (Owner.create maxConn) methods := by
    have hstart : Counted (Owner.create maxConn) := rfl
    rw [forall_run_take_iff, and_iff_right hstart,
      along_congr_of_invariant Counted (Q := NewPeer) (fun s method h => counted_step_iff h method)
        (fun s method _ h => h) _ hstart, along_append]
    exact and_iff_left ⟨trivial, trivial⟩
  constructor
  · intro h
    exact hcounted.mp h.counted
  · intro hnew
    have hclosed := closed_perm (s := Owner.create maxConn) (List.Perm.refl _) hnew
    have hnodup : (run Owner.step (Owner.create maxConn)
        (methods ++ [Method.closeAll])).accepted.Nodup := by
      have hsocks : (methods ++ [Method.closeAll]).filterMap Method.sock =
          methods.filterMap Method.sock := by
        rw [List.filterMap_append]
        exact List.append_nil _
      apply (accepted_sublist _ _).nodup
      rw [hsocks]
      exact (List.append_nil _).symm ▸ List.nodup_reverse.mpr hdistinct
    refine ⟨hcounted.mpr hnew, fun sock haccepted => ?_⟩
    rw [hclosed.count_eq]
    exact List.count_eq_one_of_mem hnodup haccepted

/-- The two sockets of a pool with two peers are closed once. -/
theorem ownsSockets_two_peers :
    OwnsSockets 10 [.addConnection 0 (ascii "a") 3, .addConnection 0 (ascii "b") 4] :=
  (ownsSockets_iff 10 _ (by decide)).mpr ⟨fun _ => rfl, fun _ => rfl, trivial⟩

/-- The first socket of a peer that is added twice is not closed. -/
theorem not_ownsSockets_same_peer :
    let s := run Owner.step (Owner.create 10)
      [.addConnection 0 (ascii "a") 3, .addConnection 0 (ascii "a") 4, .closeAll]
    s.accepted = [4, 3] ∧ s.closed = [4] ∧
      ¬ OwnsSockets 10 [.addConnection 0 (ascii "a") 3, .addConnection 0 (ascii "a") 4] := by
  refine ⟨by decide, by decide, fun h => ?_⟩
  have hcount := h.closed_once 3 (by decide)
  exact absurd hcount (by decide)

end ConnectionPool

end Blackstone.Bank
