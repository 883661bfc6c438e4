import Blackstone.SecurityProxy.System

/-!
# The accounts of the connections

A tracker should count the sessions of its client. Two steps of the threads break this. A session
that is closed twice is counted down twice. And the cleanup task sets the counter of a tracker that
is older than a minute to zero, with sessions or without, and takes the tracker out of the map.
Without them, and short of the range of `int`, the counters are exact: in every state of a run
exactly if no step is of these kinds (`accounted_iff`).
-/

namespace Blackstone.SecurityProxy

open Bank (Str ascii)
open Runs

namespace Proxy

/-! ## What the trackers should say -/

/-- The number of active sessions of a client. -/
def liveIn (sessions : List ProxySession) (active : Finset ℕ) (clientIp : Str) : ℕ :=
  (active.filter fun id => (sessions[id]?).map ProxySession.clientIp = some clientIp).card

/-- The number of sessions that a client has in `activeSessions`. -/
def live (p : Proxy) (clientIp : Str) : ℕ := liveIn p.sessions p.activeSessions clientIp

/-- Every client with a session has a tracker that counts its sessions, and no counter is
negative. -/
def Accounted (p : Proxy) : Prop :=
  ∀ clientIp, (0 < p.live clientIp → ∃ t, p.connectionTrackers clientIp = some t ∧
      t.activeConnections.toInt = p.live clientIp) ∧
    ∀ t, p.connectionTrackers clientIp = some t → 0 ≤ t.activeConnections.toInt

/-- What an entry of the map says: zero where there is none. -/
def countOf (t : Option ConnectionTracker) : ℤ := t.elim 0 fun t => t.activeConnections.toInt

@[simp] theorem countOf_none : countOf none = 0 := rfl

@[simp] theorem countOf_some (t : ConnectionTracker) :
    countOf (some t) = t.activeConnections.toInt := rfl

/-- The invariant: all counters are exact, also those of clients without a session. -/
structure Exact (p : Proxy) : Prop where
  known : ∀ id ∈ p.activeSessions, id < p.sessions.length
  counted : ∀ clientIp, countOf (p.connectionTrackers clientIp) = p.live clientIp

theorem Exact.accounted {p : Proxy} (h : p.Exact) : p.Accounted := by
  intro clientIp
  have hcount := h.counted clientIp
  cases htracker : p.connectionTrackers clientIp with
  | none =>
    rw [htracker, countOf_none] at hcount
    exact ⟨fun hlive => by omega, fun t ht => nomatch ht⟩
  | some t =>
    rw [htracker, countOf_some] at hcount
    refine ⟨fun _ => ⟨t, rfl, hcount⟩, ?_⟩
    rintro t ⟨⟩
    omega

theorem exact_start : start.Exact :=
  ⟨fun id hid => absurd hid (Finset.notMem_empty id), fun _ => rfl⟩

/-! ## The counter of a tracker -/

theorem toInt_add_one {a : Int32} (h : a.toInt + 1 < 2 ^ 31) : (a + 1).toInt = a.toInt + 1 := by
  have hlow := a.le_toInt
  rw [Int32.toInt_add, show (1 : Int32).toInt = 1 from rfl]
  exact Int.bmod_eq_of_le (by omega) (by omega)

theorem toInt_add_one_overflow {a : Int32} (h : 2 ^ 31 ≤ a.toInt + 1) : (a + 1).toInt < 0 := by
  have hhigh := a.toInt_lt
  have ha : a.toInt = 2 ^ 31 - 1 := by omega
  rw [Int32.toInt_add, ha]
  decide

theorem countOf_tracker (p : Proxy) (clientIp : Str) (now : ℤ) :
    (p.tracker clientIp now).activeConnections.toInt = countOf (p.connectionTrackers clientIp) := by
  rw [tracker]
  cases p.connectionTrackers clientIp with
  | none => rfl
  | some t => rfl

theorem countOf_update (trackers : Str → Option ConnectionTracker) (clientIp : Str)
    (t : Option ConnectionTracker) (k : Str) :
    countOf (Function.update trackers clientIp t k) =
      if k = clientIp then countOf t else countOf (trackers k) := by
  rw [Function.update_apply]
  split <;> rfl

/-! ## The number of sessions -/

theorem liveIn_append {sessions : List ProxySession} {active : Finset ℕ}
    (hknown : ∀ id ∈ active, id < sessions.length) (session : ProxySession) (k : Str) :
    liveIn (sessions ++ [session]) (insert sessions.length active) k =
      liveIn sessions active k + if k = session.clientIp then 1 else 0 := by
  have hold : (active.filter fun id =>
        ((sessions ++ [session])[id]?).map ProxySession.clientIp = some k) =
      active.filter fun id => (sessions[id]?).map ProxySession.clientIp = some k := by
    apply Finset.filter_congr
    intro id hid
    rw [List.getElem?_append_left (hknown id hid)]
  have hlast : (sessions ++ [session])[sessions.length]? = some session :=
    List.getElem?_concat_length
  have hnew : sessions.length ∉ active := fun hmem => lt_irrefl _ (hknown _ hmem)
  rw [liveIn, liveIn, Finset.filter_insert, hlast, Option.map_some, hold]
  by_cases hk : k = session.clientIp
  · rw [if_pos (congrArg some hk.symm), if_pos hk, Finset.card_insert_of_notMem]
    exact fun hmem => hnew (Finset.mem_of_mem_filter _ hmem)
  · rw [if_neg (fun heq => hk (Option.some.inj heq).symm), if_neg hk, Nat.add_zero]

theorem liveIn_erase {sessions : List ProxySession} (active : Finset ℕ) {id : ℕ}
    {session : ProxySession} (hsession : sessions[id]? = some session) (k : Str) :
    liveIn sessions (active.erase id) k + (if id ∈ active ∧ k = session.clientIp then 1 else 0) =
      liveIn sessions active k := by
  rw [liveIn, liveIn, Finset.filter_erase]
  have hmem : id ∈ (active.filter fun id =>
      (sessions[id]?).map ProxySession.clientIp = some k) ↔ id ∈ active ∧ k = session.clientIp := by
    rw [Finset.mem_filter, hsession, Option.map_some, Option.some_inj, eq_comm (a := k)]
  by_cases hid : id ∈ active ∧ k = session.clientIp
  · rw [if_pos hid, Finset.card_erase_add_one (hmem.mpr hid)]
  · rw [if_neg hid, Finset.erase_eq_of_notMem (mt hmem.mp hid), Nat.add_zero]

/-- A heartbeat changes no client. -/
theorem liveIn_modify (sessions : List ProxySession) (active : Finset ℕ) (id : ℕ) (now : ℤ)
    (k : Str) :
    liveIn (sessions.modify id fun session => { session with lastHeartbeat := now }) active k =
      liveIn sessions active k := by
  have hclient : ∀ i : ℕ, ((sessions.modify id fun session =>
      { session with lastHeartbeat := now })[i]?).map ProxySession.clientIp =
        (sessions[i]?).map ProxySession.clientIp := by
    intro i
    rw [List.getElem?_modify]
    cases sessions[i]? with
    | none => rfl
    | some session =>
      simp only [Option.map_eq_map, Option.map_some]
      split <;> rfl
  rw [liveIn, liveIn]
  simp only [hclient]

/-! ## One step -/

/-- The condition on a step: no connection is accepted when its client has as many sessions as an
`int` can count, no session is closed that has been closed before, unless its client has no
tracker, and no tracker of a client with sessions is swept when it is older than a minute. -/
def Careful (p : Proxy) : Event → Prop
  | .accept clientIp now => (p.firewall.isBlocked clientIp now).2 = false →
      ((p.tracker clientIp now).incrementAndCheckLimit now).2 = false →
      p.live clientIp + 1 < 2 ^ 31
  | .close id => ∀ session, p.sessions[id]? = some session →
      id ∈ p.activeSessions ∨ p.connectionTrackers session.clientIp = none
  | .sweep clientIp now => ∀ t, p.connectionTrackers clientIp = some t →
      trackerWindow < now - t.lastReset → p.live clientIp = 0
  | _ => True

/-- A state with the sessions and the trackers of another is as exact as it. -/
theorem Exact.of_eq {p p' : Proxy} (h : p.Exact)
    (htrackers : p'.connectionTrackers = p.connectionTrackers)
    (hsessions : p'.sessions = p.sessions) (hactive : p'.activeSessions = p.activeSessions) :
    p'.Exact := by
  refine ⟨?_, fun k => ?_⟩
  · rw [hsessions, hactive]
    exact h.known
  · rw [htrackers, live, hsessions, hactive]
    exact h.counted k

/-- What `handleAccept` does to the trackers and the sessions. -/
theorem handleAccept_cases (p : Proxy) (clientIp : Str) (now : ℤ) :
    let tracker := ((p.tracker clientIp now).incrementAndCheckLimit now).1
    let p' := (p.handleAccept clientIp now).1
    ((p.firewall.isBlocked clientIp now).2 = true ∧
        p'.connectionTrackers = p.connectionTrackers ∧ p'.sessions = p.sessions ∧
        p'.activeSessions = p.activeSessions) ∨
      ((p.firewall.isBlocked clientIp now).2 = false ∧
        ((p.tracker clientIp now).incrementAndCheckLimit now).2 = true ∧
        p'.connectionTrackers = Function.update p.connectionTrackers clientIp (some tracker) ∧
        p'.sessions = p.sessions ∧ p'.activeSessions = p.activeSessions) ∨
      ((p.firewall.isBlocked clientIp now).2 = false ∧
        ((p.tracker clientIp now).incrementAndCheckLimit now).2 = false ∧
        p'.connectionTrackers = Function.update p.connectionTrackers clientIp (some tracker) ∧
        p'.sessions = p.sessions ++ [⟨clientIp, now⟩] ∧
        p'.activeSessions = insert p.sessions.length p.activeSessions) := by
  intro tracker p'
  cases hblocked : (p.firewall.isBlocked clientIp now).2 with
  | true =>
    left
    simp only [p', handleAccept, hblocked, if_true, and_self]
  | false =>
    right
    cases hlimit : ((p.tracker clientIp now).incrementAndCheckLimit now).2 with
    | true =>
      left
      simp [p', tracker, handleAccept, hblocked, hlimit]
    | false =>
      right
      simp [p', tracker, handleAccept, hblocked, hlimit]

theorem exact_accept {p : Proxy} (h : p.Exact) (clientIp : Str) (now : ℤ)
    (hcareful : p.Careful (.accept clientIp now)) : (p.handleAccept clientIp now).1.Exact := by
  have hactive := (p.tracker clientIp now).incrementAndCheckLimit_active now
  have hbefore := p.countOf_tracker clientIp now
  rw [h.counted] at hbefore
  obtain ⟨-, htrackers, hsessions, hids⟩ | ⟨-, hlimit, htrackers, hsessions, hids⟩ |
    ⟨hblocked, hlimit, htrackers, hsessions, hids⟩ := p.handleAccept_cases clientIp now
  · exact h.of_eq htrackers hsessions hids
  · rw [hlimit, if_pos rfl] at hactive
    refine ⟨?_, fun k => ?_⟩
    · rw [hsessions, hids]
      exact h.known
    · rw [htrackers, countOf_update, live, hsessions, hids]
      by_cases hk : k = clientIp
      · rw [if_pos hk, hk, countOf_some, hactive, hbefore, live]
      · rw [if_neg hk]
        exact h.counted k
  · rw [hlimit, if_neg Bool.false_ne_true] at hactive
    have hbound := hcareful hblocked hlimit
    refine ⟨?_, fun k => ?_⟩
    · rw [hsessions, hids]
      intro id hid
      rw [List.length_append]
      obtain rfl | hid := Finset.mem_insert.mp hid
      · exact Nat.lt_succ_self _
      · exact Nat.lt_succ_of_lt (h.known id hid)
    · rw [htrackers, countOf_update, live, hsessions, hids, liveIn_append h.known]
      by_cases hk : k = clientIp
      · rw [if_pos hk, if_pos hk, hk, countOf_some, hactive, toInt_add_one (by omega), hbefore,
          live, Nat.cast_succ]
      · rw [if_neg hk, if_neg hk]
        exact h.counted k

theorem closeSession_eq {p : Proxy} {id : ℕ} {session : ProxySession}
    (hsession : p.sessions[id]? = some session) :
    p.closeSession id = { p with
      activeSessions := p.activeSessions.erase id
      connectionTrackers := Function.update p.connectionTrackers session.clientIp
        ((p.connectionTrackers session.clientIp).map ConnectionTracker.decrement) } := by
  rw [closeSession, hsession]

theorem closeSession_none {p : Proxy} {id : ℕ} (hsession : p.sessions[id]? = none) :
    p.closeSession id = p := by
  rw [closeSession, hsession]

theorem exact_close {p : Proxy} (h : p.Exact) (id : ℕ) (hcareful : p.Careful (.close id)) :
    (p.closeSession id).Exact := by
  cases hsession : p.sessions[id]? with
  | none =>
    rw [closeSession_none hsession]
    exact h
  | some session =>
    rw [closeSession_eq hsession]
    refine ⟨fun i hi => h.known i (Finset.mem_of_mem_erase hi), fun k => ?_⟩
    have hcount := h.counted k
    have hlive := liveIn_erase p.activeSessions hsession k
    change countOf (Function.update p.connectionTrackers _ _ k) =
      (liveIn p.sessions (p.activeSessions.erase id) k : ℤ)
    rw [live, ← hlive] at hcount
    rw [countOf_update]
    by_cases hk : k = session.clientIp
    · rw [if_pos hk]
      subst hk
      obtain hid | hnone := hcareful session hsession
      · rw [if_pos ⟨hid, rfl⟩] at hcount
        cases htracker : p.connectionTrackers session.clientIp with
        | none =>
          rw [htracker, countOf_none] at hcount
          omega
        | some t =>
          rw [htracker, countOf_some] at hcount
          rw [Option.map_some, countOf_some, t.toInt_decrement (by omega)]
          omega
      · -- Without a tracker the client has no session that could be taken away.
        rw [hnone, countOf_none] at hcount
        rw [hnone, Option.map_none, countOf_none]
        omega
    · rw [if_neg hk, hcount, if_neg (fun hid => hk hid.2), Nat.add_zero]

theorem exact_heartbeat {p : Proxy} (h : p.Exact) (id : ℕ) (now : ℤ) :
    (p.updateHeartbeat id now).Exact := by
  refine ⟨fun i hi => ?_, fun k => ?_⟩
  · change i < (p.sessions.modify _ _).length
    rw [List.length_modify]
    exact h.known i hi
  · change countOf (p.connectionTrackers k) = (liveIn (p.sessions.modify _ _) _ k : ℤ)
    rw [liveIn_modify]
    exact h.counted k

/-- The cleanup task closes only sessions that it finds in the table. -/
theorem exact_expire {p : Proxy} (h : p.Exact) (id : ℕ) (now : ℤ) :
    (p.expireSession id now).Exact := by
  rw [expireSession]
  cases hsession : p.sessions[id]? with
  | none => exact h
  | some session =>
    by_cases hexpired : id ∈ p.activeSessions ∧ connectionTimeout < now - session.lastHeartbeat
    · simp only [if_pos hexpired]
      exact exact_close h id fun _ _ => Or.inl hexpired.1
    · simp only [if_neg hexpired]
      exact h

theorem exact_sweep {p : Proxy} (h : p.Exact) (clientIp : Str) (now : ℤ)
    (hcareful : p.Careful (.sweep clientIp now)) : (p.sweepTracker clientIp now).Exact := by
  rw [sweepTracker]
  cases htracker : p.connectionTrackers clientIp with
  | none => exact h
  | some t =>
    refine ⟨h.known, fun k => ?_⟩
    change countOf (Function.update p.connectionTrackers _ _ k) = (p.live k : ℤ)
    rw [countOf_update]
    by_cases hk : k = clientIp
    · subst hk
      have hcount := h.counted k
      rw [htracker, countOf_some] at hcount
      rw [if_pos rfl]
      by_cases hold : trackerWindow < now - t.lastReset
      · rw [ConnectionTracker.cleanup, if_pos hold, hcareful t htracker hold]
        rfl
      · rw [ConnectionTracker.cleanup, if_neg hold]
        cases hempty : t.isEmpty with
        | false => exact hcount
        | true =>
          have hzero : t.activeConnections = 0 := by
            rw [ConnectionTracker.isEmpty, Bool.and_eq_true, decide_eq_true_eq] at hempty
            exact hempty.1
          rw [hzero] at hcount
          exact hcount
    · rw [if_neg hk]
      exact h.counted k

theorem exact_step {p : Proxy} (h : p.Exact) (e : Event) (hcareful : p.Careful e) :
    (step p e).Exact := by
  cases e with
  | accept clientIp now => exact exact_accept h clientIp now hcareful
  | control parts now =>
    change (p.control parts now).Exact
    rw [control]
    split
    · exact h
    · exact h.of_eq rfl rfl rfl
  | rateLimited clientIp now => exact h.of_eq rfl rfl rfl
  | packet sourceIp attack now =>
    change (p.processPacket sourceIp attack now).Exact
    rw [processPacket]
    split
    · exact h.of_eq rfl rfl rfl
    · exact h.of_eq rfl rfl rfl
  | close id => exact exact_close h id hcareful
  | heartbeat id now => exact exact_heartbeat h id now
  | expire id now => exact exact_expire h id now
  | sweep clientIp now => exact exact_sweep h clientIp now hcareful

/-! ## What a careless step breaks -/

theorem careful_accept {p : Proxy} (h : p.Exact) (clientIp : Str) (now : ℤ)
    (haccounted : (p.handleAccept clientIp now).1.Accounted) :
    p.Careful (.accept clientIp now) := by
  intro hblocked hlimit
  have hactive := (p.tracker clientIp now).incrementAndCheckLimit_active now
  have hbefore := p.countOf_tracker clientIp now
  rw [h.counted] at hbefore
  rw [hlimit, if_neg Bool.false_ne_true] at hactive
  by_contra hbound
  have hnegative := toInt_add_one_overflow
    (show 2 ^ 31 ≤ (p.tracker clientIp now).activeConnections.toInt + 1 by omega)
  obtain ⟨hrefused, -⟩ | ⟨-, hover, -⟩ | ⟨-, -, htrackers, -⟩ := p.handleAccept_cases clientIp now
  · rw [hblocked] at hrefused
    exact Bool.false_ne_true hrefused
  · rw [hlimit] at hover
    exact Bool.false_ne_true hover
  · have hnonneg := (haccounted clientIp).2 _ (by rw [htrackers, Function.update_self])
    rw [hactive] at hnonneg
    omega

theorem careful_close {p : Proxy} (h : p.Exact) (id : ℕ)
    (haccounted : (p.closeSession id).Accounted) : p.Careful (.close id) := by
  intro session hsession
  by_contra hnot
  obtain ⟨hid, htracker⟩ := not_or.mp hnot
  obtain ⟨t, htracker⟩ := Option.ne_none_iff_exists'.mp htracker
  have hcount := h.counted session.clientIp
  rw [htracker, countOf_some] at hcount
  have hlive : (p.closeSession id).live session.clientIp = p.live session.clientIp := by
    rw [closeSession_eq hsession, live, live]
    change liveIn p.sessions (p.activeSessions.erase id) _ = _
    rw [Finset.erase_eq_of_notMem hid]
  have hafter : (p.closeSession id).connectionTrackers session.clientIp = some t.decrement := by
    rw [closeSession_eq hsession]
    change Function.update _ _ _ _ = _
    rw [Function.update_self, htracker, Option.map_some]
  have hdecrement := t.toInt_decrement (by omega)
  -- The counter is one less than the number of sessions, which is not negative.
  have hnonneg := (haccounted session.clientIp).2 _ hafter
  obtain ⟨t', ht', hequal⟩ := (haccounted session.clientIp).1 (by omega)
  rw [hafter] at ht'
  obtain rfl := Option.some.inj ht'
  omega

theorem careful_sweep {p : Proxy} (clientIp : Str) (now : ℤ)
    (haccounted : (p.sweepTracker clientIp now).Accounted) : p.Careful (.sweep clientIp now) := by
  intro t htracker hold
  by_contra hlive
  have hafter : (p.sweepTracker clientIp now).connectionTrackers clientIp = none := by
    rw [sweepTracker, htracker]
    change Function.update _ _ _ _ = _
    rw [Function.update_self, ConnectionTracker.cleanup, if_pos hold]
    rfl
  have hsame : (p.sweepTracker clientIp now).live clientIp = p.live clientIp := by
    rw [sweepTracker, htracker]
    rfl
  obtain ⟨t', ht', -⟩ := (haccounted clientIp).1 (by omega)
  rw [hafter] at ht'
  exact nomatch ht'

/-- A step keeps the counters right exactly if it is careful. -/
theorem accounted_step_iff {p : Proxy} (h : p.Exact) (e : Event) :
    (step p e).Accounted ↔ p.Careful e := by
  refine ⟨fun haccounted => ?_, fun hcareful => (exact_step h e hcareful).accounted⟩
  cases e with
  | accept clientIp now => exact careful_accept h clientIp now haccounted
  | close id => exact careful_close h id haccounted
  | sweep clientIp now => exact careful_sweep clientIp now haccounted
  | control parts now => trivial
  | rateLimited clientIp now => trivial
  | packet sourceIp attack now => trivial
  | heartbeat id now => trivial
  | expire id now => trivial

/-! ## Runs -/

/-- The counters are right in every state of a run exactly if all of its steps are careful. -/
theorem accounted_iff (events : List Event) :
    (∀ n, (run step start (events.take n)).Accounted) ↔ Along step Careful start events := by
  have halong : Along step (fun p e => (step p e).Accounted) start events ↔
      Along step Careful start events :=
    along_congr_of_invariant Exact (fun p e h => accounted_step_iff h e)
      (fun p e h haccounted => exact_step h e ((accounted_step_iff h e).mp haccounted))
      events exact_start
  rw [forall_run_take_iff Accounted, halong]
  exact and_iff_right exact_start.accounted

/-- A client comes back from the same port after fifty seconds. -/
def returningClient : List Event :=
  let client := ascii "/10.0.0.1:5000"
  [.accept client 0, .close 0, .accept client 50000] ++ cleanupRun 61000 [1] [(client, 61000)]

/-- The cleanup task takes the tracker away from the open session. -/
theorem returningClient_not_accounted :
    ¬ ∀ n, (run step start (returningClient.take n)).Accounted := by
  intro haccounted
  have hlive : 0 < (run step start (returningClient.take 5)).live (ascii "/10.0.0.1:5000") := by
    decide +kernel
  have hdropped : ((run step start (returningClient.take 5)).connectionTrackers
      (ascii "/10.0.0.1:5000")).isNone := by decide +kernel
  obtain ⟨t, ht, -⟩ := (haccounted 5 _).1 hlive
  rw [ht] at hdropped
  exact Bool.false_ne_true hdropped

end Proxy

end Blackstone.SecurityProxy
