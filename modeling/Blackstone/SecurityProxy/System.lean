import Blackstone.Bank.Text
import Blackstone.Library.Runs
import Mathlib.Data.Finset.Card
import Mathlib.Data.List.GetD

/-!
# The proxy

`P2PSecurityProxySystem.java`: the firewall, the connection trackers and the table of sessions.
What the threads do to them is a list of atomic steps in any order. The tasks consist of them:
`handleRead` blocks a client and then closes its session, `shutdown` closes all sessions, and a run
of the cleanup task is `cleanupRun`.

The keys of the trackers, and the names that the automatic blocks go by, are the texts of remote
addresses. Nothing ever enters the whitelist.
-/

namespace Blackstone.SecurityProxy

open Bank (Str ascii)
open Runs

/-! ## The firewall -/

/-- `IP_BAN_DURATION`. -/
def ipBanDuration : ℤ := 3600000

/-- `FirewallManager`. Of an `IpBanEntry` only the time is read. -/
structure FirewallManager where
  bannedIps : Str → Option ℤ
  whitelist : List Str
  blacklist : List Str

namespace FirewallManager

def new : FirewallManager := ⟨fun _ => none, [], []⟩

/-- `isBlocked`, which forgets an entry that is over. -/
def isBlocked (f : FirewallManager) (ip : Str) (now : ℤ) : FirewallManager × Bool :=
  if ip ∈ f.whitelist then (f, false)
  else if ip ∈ f.blacklist then (f, true)
  else
    match f.bannedIps ip with
    | none => (f, false)
    | some banTime =>
      if ipBanDuration < now - banTime then
        ({ f with bannedIps := Function.update f.bannedIps ip none }, false)
      else (f, true)

/-- `blockIp`. -/
def blockIp (f : FirewallManager) (ip : Str) (now : ℤ) : FirewallManager :=
  { f with
    bannedIps := Function.update f.bannedIps ip (some now)
    blacklist := f.blacklist ++ [ip] }

/-- `unblockIp`: of the blacklist it removes the first occurrence. -/
def unblockIp (f : FirewallManager) (ip : Str) : FirewallManager :=
  { f with
    bannedIps := Function.update f.bannedIps ip none
    blacklist := f.blacklist.erase ip }

/-- `clearBans`. -/
def clearBans (f : FirewallManager) : FirewallManager :=
  { f with bannedIps := fun _ => none, blacklist := [] }

end FirewallManager

/-- `toUpperCase` of an ASCII character. -/
def upperCase (b : UInt8) : UInt8 := if 97 ≤ b ∧ b ≤ 122 then b - 32 else b

/-- `processControlCommand` after `split`: the firewall and the answer, for the commands that
change the firewall. -/
def processControlCommand (f : FirewallManager) (parts : List Str) (now : ℤ) :
    Option (FirewallManager × Str) :=
  let name := (parts.headD []).map upperCase
  if name = ascii "BAN" then
    match parts[1]? with
    | some ip => some (f.blockIp ip now, ascii "OK: Banned " ++ ip)
    | none => some (f, ascii "ERROR: Missing IP")
  else if name = ascii "UNBAN" then
    match parts[1]? with
    | some ip => some (f.unblockIp ip, ascii "OK: Unbanned " ++ ip)
    | none => some (f, ascii "ERROR: Missing IP")
  else if name = ascii "CLEAR_BANS" then some (f.clearBans, ascii "OK: All bans cleared")
  else none

/-! ## Connections and sessions -/

/-- `MAX_CONNECTIONS_PER_IP`. -/
def maxConnectionsPerIp : Int32 := 50

/-- The time after which a tracker starts again. -/
def trackerWindow : ℤ := 60000

/-- `CONNECTION_TIMEOUT`. -/
def connectionTimeout : ℤ := 30000

/-- `ConnectionTracker`. -/
structure ConnectionTracker where
  activeConnections : Int32
  totalConnections : Int32
  lastReset : ℤ

namespace ConnectionTracker

def new (now : ℤ) : ConnectionTracker := ⟨0, 0, now⟩

/-- The reset at the start of `incrementAndCheckLimit`, which leaves the active connections. -/
def renew (t : ConnectionTracker) (now : ℤ) : ConnectionTracker :=
  if trackerWindow < now - t.lastReset then { t with totalConnections := 0, lastReset := now }
  else t

/-- `incrementAndCheckLimit`: `true` beyond the limit. -/
def incrementAndCheckLimit (t : ConnectionTracker) (now : ℤ) : ConnectionTracker × Bool :=
  let t := t.renew now
  let t := { t with totalConnections := t.totalConnections + 1 }
  if maxConnectionsPerIp < t.totalConnections then (t, true)
  else ({ t with activeConnections := t.activeConnections + 1 }, false)

/-- `decrement`. -/
def decrement (t : ConnectionTracker) : ConnectionTracker :=
  { t with activeConnections := t.activeConnections - 1 }

theorem toInt_decrement (t : ConnectionTracker) (h : -2 ^ 31 < t.activeConnections.toInt) :
    t.decrement.activeConnections.toInt = t.activeConnections.toInt - 1 := by
  have hhigh := t.activeConnections.toInt_lt
  rw [decrement, Int32.toInt_sub, show (1 : Int32).toInt = 1 from rfl]
  exact Int.bmod_eq_of_le (by omega) (by omega)

/-- `cleanup`. -/
def cleanup (t : ConnectionTracker) (now : ℤ) : ConnectionTracker :=
  if trackerWindow < now - t.lastReset then
    { t with totalConnections := 0, activeConnections := 0 }
  else t

/-- `isEmpty`. -/
def isEmpty (t : ConnectionTracker) : Bool := t.activeConnections = 0 && t.totalConnections = 0

theorem renew_active (t : ConnectionTracker) (now : ℤ) :
    (t.renew now).activeConnections = t.activeConnections := by
  unfold renew
  split <;> rfl

theorem incrementAndCheckLimit_active (t : ConnectionTracker) (now : ℤ) :
    (t.incrementAndCheckLimit now).1.activeConnections =
      if (t.incrementAndCheckLimit now).2 then t.activeConnections
      else t.activeConnections + 1 := by
  unfold incrementAndCheckLimit
  by_cases hlimit : maxConnectionsPerIp < (t.renew now).totalConnections + 1
  · simp only [if_pos hlimit, renew_active, if_true]
  · simp only [if_neg hlimit, renew_active, Bool.false_eq_true, if_false]

end ConnectionTracker

/-- `ProxySession`, without what the connection itself needs. -/
structure ProxySession where
  clientIp : Str
  lastHeartbeat : ℤ

/-- The state of `P2PSecurityProxySystem`. A session is known by its place among the sessions that
were ever made, since no two have the same random `sessionId`. -/
structure Proxy where
  firewall : FirewallManager
  connectionTrackers : Str → Option ConnectionTracker
  sessions : List ProxySession
  activeSessions : Finset ℕ

namespace Proxy

def start : Proxy := ⟨FirewallManager.new, fun _ => none, [], ∅⟩

/-- What becomes of a connection. -/
inductive Outcome
  | refused
  | overLimit
  | registered
deriving DecidableEq

/-- `computeIfAbsent` on the trackers. -/
def tracker (p : Proxy) (clientIp : Str) (now : ℤ) : ConnectionTracker :=
  (p.connectionTrackers clientIp).getD (ConnectionTracker.new now)

/-- `handleAccept`. -/
def handleAccept (p : Proxy) (clientIp : Str) (now : ℤ) : Proxy × Outcome :=
  let blocked := p.firewall.isBlocked clientIp now
  if blocked.2 then ({ p with firewall := blocked.1 }, .refused)
  else
    let counted := (p.tracker clientIp now).incrementAndCheckLimit now
    let trackers := Function.update p.connectionTrackers clientIp (some counted.1)
    if counted.2 then
      ({ p with firewall := blocked.1.blockIp clientIp now, connectionTrackers := trackers },
        .overLimit)
    else
      ({ p with
          firewall := blocked.1
          connectionTrackers := trackers
          sessions := p.sessions ++ [⟨clientIp, now⟩]
          activeSessions := insert p.sessions.length p.activeSessions }, .registered)

/-- `closeSession`. It is called with any session that there ever was. -/
def closeSession (p : Proxy) (id : ℕ) : Proxy :=
  match p.sessions[id]? with
  | none => p
  | some session =>
    { p with
      activeSessions := p.activeSessions.erase id
      connectionTrackers := Function.update p.connectionTrackers session.clientIp
        ((p.connectionTrackers session.clientIp).map ConnectionTracker.decrement) }

/-- `processPacket` as far as the firewall goes. `attack` is the result of `isAttackDetected`. -/
def processPacket (p : Proxy) (sourceIp : Str) (attack : Bool) (now : ℤ) : Proxy :=
  let blocked := p.firewall.isBlocked sourceIp now
  if ¬ blocked.2 ∧ attack then { p with firewall := blocked.1.blockIp sourceIp now }
  else { p with firewall := blocked.1 }

/-- A command of the operator. -/
def control (p : Proxy) (parts : List Str) (now : ℤ) : Proxy :=
  match processControlCommand p.firewall parts now with
  | none => p
  | some (firewall, _) => { p with firewall := firewall }

/-- `updateHeartbeat`. -/
def updateHeartbeat (p : Proxy) (id : ℕ) (now : ℤ) : Proxy :=
  { p with sessions := p.sessions.modify id fun session => { session with lastHeartbeat := now } }

/-- The cleanup task at one entry of `activeSessions`. -/
def expireSession (p : Proxy) (id : ℕ) (now : ℤ) : Proxy :=
  match p.sessions[id]? with
  | none => p
  | some session =>
    if id ∈ p.activeSessions ∧ connectionTimeout < now - session.lastHeartbeat then
      p.closeSession id
    else p

/-- The cleanup task at one entry of `connectionTrackers`. -/
def sweepTracker (p : Proxy) (clientIp : Str) (now : ℤ) : Proxy :=
  match p.connectionTrackers clientIp with
  | none => p
  | some t =>
    let t := t.cleanup now
    { p with
      connectionTrackers := Function.update p.connectionTrackers clientIp
        (if t.isEmpty then none else some t) }

end Proxy

/-! ## The steps -/

/-- A step of one of the threads, with the time at which it is taken. -/
inductive Event
  | accept (clientIp : Str) (now : ℤ)
  | control (parts : List Str) (now : ℤ)
  | rateLimited (clientIp : Str) (now : ℤ)
  | packet (sourceIp : Str) (attack : Bool) (now : ℤ)
  | close (id : ℕ)
  | heartbeat (id : ℕ) (now : ℤ)
  | expire (id : ℕ) (now : ℤ)
  | sweep (clientIp : Str) (now : ℤ)

def step (p : Proxy) : Event → Proxy
  | .accept clientIp now => (p.handleAccept clientIp now).1
  | .control parts now => p.control parts now
  | .rateLimited clientIp now => { p with firewall := p.firewall.blockIp clientIp now }
  | .packet sourceIp attack now => p.processPacket sourceIp attack now
  | .close id => p.closeSession id
  | .heartbeat id now => p.updateHeartbeat id now
  | .expire id now => p.expireSession id now
  | .sweep clientIp now => p.sweepTracker clientIp now

/-- A run of the cleanup task: the sessions, all at the time read first, and then the trackers,
each with the time that it reads itself. -/
def cleanupRun (now : ℤ) (ids : List ℕ) (trackers : List (Str × ℤ)) : List Event :=
  ids.map (.expire · now) ++ trackers.map fun entry => .sweep entry.1 entry.2

end Blackstone.SecurityProxy
