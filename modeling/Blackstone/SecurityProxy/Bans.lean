import Blackstone.Library.Delimited
import Blackstone.SecurityProxy.System

/-!
# Bans

The operator bans an address, `10.0.0.1`, and `handleAccept` asks the firewall about the text of a
remote endpoint, `/10.0.0.1:5000`. No address has such a text, so no ban ever changes what becomes
of a connection (`outcome_ban`), and neither does the end of a ban. What does count are the
automatic blocks, which go by the text of the endpoint and stay until `CLEAR_BANS`, since a blocked
text is on the blacklist as well and nothing takes it off.

So the bans are enforced exactly along the histories in which, whenever an endpoint connects, the
automatic blocks of the endpoint itself, or its connection limit, happen to agree with what is
wanted for its address (`enforced_iff`).
-/

namespace Blackstone.SecurityProxy

open Bank (Str ascii colon decimal decimal_injective not_mem_decimal isDigit)
open Runs Delimited

/-! ## Addresses -/

def dot : UInt8 := 46

def slash : UInt8 := 47

/-- An IPv4 address. -/
structure Address where
  first : UInt8
  second : UInt8
  third : UInt8
  fourth : UInt8
deriving DecidableEq

/-- The dotted form of an address. -/
def Address.dotted (a : Address) : Str :=
  decimal a.first.toNat ++ dot :: (decimal a.second.toNat ++
    dot :: (decimal a.third.toNat ++ dot :: decimal a.fourth.toNat))

/-- An address and a port. -/
structure Endpoint where
  address : Address
  port : UInt16
deriving DecidableEq

/-- `getRemoteAddress().toString()`. -/
def Endpoint.remote (e : Endpoint) : Str :=
  slash :: (e.address.dotted ++ colon :: decimal e.port.toNat)

theorem not_mem_dotted {b : UInt8} (hdigit : isDigit b = false) (hdot : b ≠ dot) (a : Address) :
    b ∉ a.dotted := by
  rw [Address.dotted]
  simp only [List.mem_append, List.mem_cons, not_or]
  exact ⟨not_mem_decimal hdigit _, hdot, not_mem_decimal hdigit _, hdot,
    not_mem_decimal hdigit _, hdot, not_mem_decimal hdigit _⟩

theorem remote_ne_dotted (e : Endpoint) (a : Address) : e.remote ≠ a.dotted := by
  intro heq
  have hmem : slash ∈ e.remote := List.mem_cons_self
  rw [heq] at hmem
  exact not_mem_dotted rfl (by decide) a hmem

theorem dotted_injective : Function.Injective Address.dotted := by
  have hdecimal : ∀ {x y : UInt8}, decimal x.toNat = decimal y.toNat → x = y :=
    fun h => UInt8.toNat_inj.mp (decimal_injective h)
  have hdot : ∀ n, dot ∉ decimal n := not_mem_decimal rfl
  intro a b heq
  obtain ⟨hfirst, hrest⟩ := append_cons_inj (hdot _) (hdot _) heq
  obtain ⟨hsecond, hrest⟩ := append_cons_inj (hdot _) (hdot _) hrest
  obtain ⟨hthird, hfourth⟩ := append_cons_inj (hdot _) (hdot _) hrest
  cases a
  cases b
  rw [Address.mk.injEq]
  exact ⟨hdecimal hfirst, hdecimal hsecond, hdecimal hthird, hdecimal hfourth⟩

theorem remote_injective : Function.Injective Endpoint.remote := by
  intro e e' heq
  obtain ⟨haddress, hport⟩ := append_cons_inj (not_mem_dotted rfl (by decide) _)
    (not_mem_dotted rfl (by decide) _) (List.cons.inj heq).2
  cases e
  cases e'
  rw [Endpoint.mk.injEq]
  exact ⟨dotted_injective haddress, UInt16.toNat_inj.mp (decimal_injective hport)⟩

/-! ## The firewall -/

/-- No text is on the whitelist, and every banned one is on the blacklist. -/
structure FirewallManager.Sound (f : FirewallManager) : Prop where
  whitelist : f.whitelist = []
  listed : ∀ ip banTime, f.bannedIps ip = some banTime → ip ∈ f.blacklist

namespace FirewallManager

theorem sound_new : new.Sound := ⟨rfl, fun _ _ h => nomatch h⟩

/-- Only the blacklist counts: no ban is ever over. -/
theorem isBlocked_eq {f : FirewallManager} (h : f.Sound) (ip : Str) (now : ℤ) :
    f.isBlocked ip now = (f, decide (ip ∈ f.blacklist)) := by
  rw [isBlocked, h.whitelist, if_neg List.not_mem_nil]
  by_cases hlisted : ip ∈ f.blacklist
  · rw [if_pos hlisted, decide_eq_true hlisted]
  · rw [if_neg hlisted, decide_eq_false hlisted]
    cases hban : f.bannedIps ip with
    | none => rfl
    | some banTime => exact absurd (h.listed ip banTime hban) hlisted

theorem isBlocked_snd {f : FirewallManager} (h : f.Sound) (ip : Str) (now : ℤ) :
    (f.isBlocked ip now).2 = decide (ip ∈ f.blacklist) := by
  rw [isBlocked_eq h]

theorem sound_blockIp {f : FirewallManager} (h : f.Sound) (ip : Str) (now : ℤ) :
    (f.blockIp ip now).Sound := by
  refine ⟨h.whitelist, fun ip' banTime hban => ?_⟩
  change ip' ∈ f.blacklist ++ [ip]
  change Function.update f.bannedIps ip (some now) ip' = some banTime at hban
  rw [List.mem_append, List.mem_singleton]
  by_cases heq : ip' = ip
  · exact Or.inr heq
  · rw [Function.update_of_ne heq] at hban
    exact Or.inl (h.listed ip' banTime hban)

theorem sound_unblockIp {f : FirewallManager} (h : f.Sound) (ip : Str) :
    (f.unblockIp ip).Sound := by
  refine ⟨h.whitelist, fun ip' banTime hban => ?_⟩
  change Function.update f.bannedIps ip none ip' = some banTime at hban
  have hne : ip' ≠ ip := by
    rintro rfl
    rw [Function.update_self] at hban
    exact nomatch hban
  rw [Function.update_of_ne hne] at hban
  exact (List.mem_erase_of_ne hne).mpr (h.listed ip' banTime hban)

theorem sound_clearBans {f : FirewallManager} (h : f.Sound) : f.clearBans.Sound :=
  ⟨h.whitelist, fun _ _ hban => nomatch hban⟩

end FirewallManager

/-! ## What becomes of a connection -/

namespace Proxy

theorem handleAccept_outcome {p : Proxy} (h : p.firewall.Sound) (clientIp : Str) (now : ℤ) :
    (p.handleAccept clientIp now).2 =
      if clientIp ∈ p.firewall.blacklist then .refused
      else if ((p.tracker clientIp now).incrementAndCheckLimit now).2 then .overLimit
      else .registered := by
  rw [handleAccept, FirewallManager.isBlocked_eq h]
  by_cases hlisted : clientIp ∈ p.firewall.blacklist
  · simp only [decide_eq_true hlisted, if_true, if_pos hlisted]
  · simp only [decide_eq_false hlisted, Bool.false_eq_true, if_false, if_neg hlisted]
    split <;> rfl

theorem handleAccept_firewall {p : Proxy} (h : p.firewall.Sound) (clientIp : Str) (now : ℤ) :
    (p.handleAccept clientIp now).1.firewall =
      if (p.handleAccept clientIp now).2 = .overLimit then p.firewall.blockIp clientIp now
      else p.firewall := by
  rw [handleAccept, FirewallManager.isBlocked_eq h]
  by_cases hlisted : clientIp ∈ p.firewall.blacklist
  · simp [decide_eq_true hlisted]
  · simp only [decide_eq_false hlisted, Bool.false_eq_true, if_false]
    split <;> rfl

theorem processPacket_firewall {p : Proxy} (h : p.firewall.Sound) (sourceIp : Str) (attack : Bool)
    (now : ℤ) :
    (p.processPacket sourceIp attack now).firewall =
      if sourceIp ∉ p.firewall.blacklist ∧ attack then p.firewall.blockIp sourceIp now
      else p.firewall := by
  rw [processPacket, FirewallManager.isBlocked_eq h]
  simp only [decide_eq_true_eq]
  split <;> rfl

theorem closeSession_firewall (p : Proxy) (id : ℕ) : (p.closeSession id).firewall = p.firewall := by
  rw [closeSession]
  split <;> rfl

theorem expireSession_firewall (p : Proxy) (id : ℕ) (now : ℤ) :
    (p.expireSession id now).firewall = p.firewall := by
  rw [expireSession]
  split
  · rfl
  · split
    · exact closeSession_firewall p id
    · rfl

theorem sweepTracker_firewall (p : Proxy) (clientIp : Str) (now : ℤ) :
    (p.sweepTracker clientIp now).firewall = p.firewall := by
  rw [sweepTracker]
  split <;> rfl

theorem control_ban (p : Proxy) (ip : Str) (now : ℤ) :
    p.control [ascii "BAN", ip] now = { p with firewall := p.firewall.blockIp ip now } := by
  have hname : (ascii "BAN").map upperCase = ascii "BAN" := by decide
  rw [control, processControlCommand, List.headD_cons, if_pos hname]
  rfl

theorem control_unban (p : Proxy) (ip : Str) (now : ℤ) :
    p.control [ascii "UNBAN", ip] now = { p with firewall := p.firewall.unblockIp ip } := by
  have hname : (ascii "UNBAN").map upperCase = ascii "UNBAN" := by decide
  have hban : ¬ (ascii "UNBAN").map upperCase = ascii "BAN" := by decide
  rw [control, processControlCommand, List.headD_cons, if_neg hban, if_pos hname]
  rfl

theorem control_clearBans (p : Proxy) (now : ℤ) :
    p.control [ascii "CLEAR_BANS"] now = { p with firewall := p.firewall.clearBans } := by
  rw [control, processControlCommand, if_neg (by decide), if_neg (by decide), if_pos (by decide)]

end Proxy

/-! ## Histories -/

/-- What happens, in terms of addresses and endpoints. -/
inductive Occurrence
  | accept (e : Endpoint) (now : ℤ)
  | ban (a : Address) (now : ℤ)
  | unban (a : Address) (now : ℤ)
  | clearBans (now : ℤ)
  | rateLimited (e : Endpoint) (now : ℤ)
  | packet (e : Endpoint) (attack : Bool) (now : ℤ)
  | close (id : ℕ)
  | heartbeat (id : ℕ) (now : ℤ)
  | expire (id : ℕ) (now : ℤ)
  | sweep (e : Endpoint) (now : ℤ)

/-- The step of the proxy. -/
def Occurrence.event : Occurrence → Event
  | .accept e now => .accept e.remote now
  | .ban a now => .control [ascii "BAN", a.dotted] now
  | .unban a now => .control [ascii "UNBAN", a.dotted] now
  | .clearBans now => .control [ascii "CLEAR_BANS"] now
  | .rateLimited e now => .rateLimited e.remote now
  | .packet e attack now => .packet e.remote attack now
  | .close id => .close id
  | .heartbeat id now => .heartbeat id now
  | .expire id now => .expire id now
  | .sweep e now => .sweep e.remote now

/-- How an address stands: whether it was blocked last, by the operator or automatically, or
taken off by the operator. -/
inductive Standing
  | unknown
  | blockedAt (time : ℤ)
  | unbanned

/-- What the history has been. -/
structure Past where
  /-- The time of the last `BAN` of an address since it was unbanned or all bans were cleared. -/
  ban : Address → Option ℤ
  standing : Address → Standing
  /-- The endpoints that were blocked automatically since all bans were cleared. -/
  automatic : List Endpoint

namespace Past

def none : Past := ⟨fun _ => Option.none, fun _ => .unknown, []⟩

/-- An automatic block of an endpoint. -/
def block (past : Past) (e : Endpoint) (now : ℤ) : Past :=
  { past with
    standing := Function.update past.standing e.address (.blockedAt now)
    automatic := e :: past.automatic }

/-- A `BAN` is in force, which lasts for `IP_BAN_DURATION`. -/
def Banned (past : Past) (a : Address) (now : ℤ) : Prop :=
  ∃ time, past.ban a = some time ∧ now - time ≤ ipBanDuration

/-- The address is to be accepted again. -/
def Freed (past : Past) (a : Address) (now : ℤ) : Prop :=
  match past.standing a with
  | .unknown => False
  | .blockedAt time => ipBanDuration < now - time
  | .unbanned => True

end Past

/-- The proxy and its history. -/
structure World where
  proxy : Proxy
  past : Past

namespace World

def start : World := ⟨Proxy.start, Past.none⟩

/-- The history after an occurrence. Whether it is an automatic block is what the proxy decides. -/
def pastAfter (w : World) : Occurrence → Past
  | .accept e now =>
    if (w.proxy.handleAccept e.remote now).2 = .overLimit then w.past.block e now else w.past
  | .ban a now =>
    { w.past with
      ban := Function.update w.past.ban a (some now)
      standing := Function.update w.past.standing a (.blockedAt now) }
  | .unban a _ =>
    { w.past with
      ban := Function.update w.past.ban a none
      standing := Function.update w.past.standing a .unbanned }
  | .clearBans _ => { w.past with ban := fun _ => none, automatic := [] }
  | .rateLimited e now => w.past.block e now
  | .packet e attack now =>
    if ¬ (w.proxy.firewall.isBlocked e.remote now).2 ∧ attack then w.past.block e now else w.past
  | _ => w.past

def step (w : World) (o : Occurrence) : World :=
  ⟨SecurityProxy.step w.proxy o.event, w.pastAfter o⟩

/-- What the bans are for: no endpoint of a banned address gets a session, and no endpoint of a
freed one is refused. Beyond its limit a connection is itself the next block of the address. -/
def Enforced (w : World) : Occurrence → Prop
  | .accept e now =>
    (w.past.Banned e.address now → (w.proxy.handleAccept e.remote now).2 ≠ .registered) ∧
      (w.past.Freed e.address now → (w.proxy.handleAccept e.remote now).2 ≠ .refused)
  | _ => True

/-- The condition: an endpoint of a banned address is itself blocked automatically or beyond its
connection limit, and an endpoint of a freed address is not blocked automatically. -/
def Agrees (w : World) : Occurrence → Prop
  | .accept e now =>
    (w.past.Banned e.address now → e ∈ w.past.automatic ∨
        ((w.proxy.tracker e.remote now).incrementAndCheckLimit now).2 = true) ∧
      (w.past.Freed e.address now → e ∉ w.past.automatic)
  | _ => True

/-- The invariant: of the texts of endpoints the blacklist has those that were blocked
automatically. -/
structure Tracked (w : World) : Prop where
  sound : w.proxy.firewall.Sound
  listed : ∀ e : Endpoint, e.remote ∈ w.proxy.firewall.blacklist ↔ e ∈ w.past.automatic

theorem tracked_start : start.Tracked :=
  ⟨FirewallManager.sound_new, fun _ => iff_of_false List.not_mem_nil List.not_mem_nil⟩

theorem enforced_iff_agrees {w : World} (h : w.Tracked) (o : Occurrence) :
    w.Enforced o ↔ w.Agrees o := by
  cases o with
  | accept e now =>
    rw [Enforced, Agrees, w.proxy.handleAccept_outcome h.sound e.remote now, ← h.listed]
    by_cases hlisted : e.remote ∈ w.proxy.firewall.blacklist
    · simp [hlisted]
    · cases hlimit : ((w.proxy.tracker e.remote now).incrementAndCheckLimit now).2 with
      | true => simp [hlisted]
      | false => simp [hlisted]
  | _ => exact Iff.rfl

/-- An automatic block puts the text of one endpoint on the blacklist. -/
theorem mem_blockIp_remote {w : World} (h : w.Tracked) (e : Endpoint) (now : ℤ) (e' : Endpoint) :
    e'.remote ∈ (w.proxy.firewall.blockIp e.remote now).blacklist ↔
      e' ∈ (w.past.block e now).automatic := by
  change e'.remote ∈ w.proxy.firewall.blacklist ++ [e.remote] ↔ e' ∈ e :: w.past.automatic
  rw [List.mem_append, List.mem_singleton, List.mem_cons, h.listed, or_comm,
    remote_injective.eq_iff]

/-- The invariant after a step, from what the step makes of the firewall. -/
theorem tracked_of_firewall {w : World} {o : Occurrence} {f : FirewallManager}
    (hfirewall : (SecurityProxy.step w.proxy o.event).firewall = f) (hsound : f.Sound)
    (hlisted : ∀ e : Endpoint, e.remote ∈ f.blacklist ↔ e ∈ (w.pastAfter o).automatic) :
    (w.step o).Tracked := by
  subst hfirewall
  exact ⟨hsound, hlisted⟩

/-- A step that leaves the firewall and the history as they are. -/
theorem Tracked.of_eq {w : World} (h : w.Tracked) {o : Occurrence}
    (hfirewall : (SecurityProxy.step w.proxy o.event).firewall = w.proxy.firewall)
    (hpast : w.pastAfter o = w.past) : (w.step o).Tracked := by
  refine tracked_of_firewall hfirewall h.sound fun e => ?_
  rw [hpast]
  exact h.listed e

/-- A step that blocks an endpoint automatically. -/
theorem Tracked.of_block {w : World} (h : w.Tracked) {o : Occurrence} {e : Endpoint} {now : ℤ}
    (hfirewall : (SecurityProxy.step w.proxy o.event).firewall =
      w.proxy.firewall.blockIp e.remote now)
    (hpast : w.pastAfter o = w.past.block e now) : (w.step o).Tracked := by
  refine tracked_of_firewall hfirewall (FirewallManager.sound_blockIp h.sound e.remote now)
    fun e' => ?_
  rw [hpast]
  exact mem_blockIp_remote h e now e'

theorem tracked_step {w : World} (h : w.Tracked) (o : Occurrence) : (w.step o).Tracked := by
  cases o with
  | accept e now =>
    have hfirewall := w.proxy.handleAccept_firewall h.sound e.remote now
    by_cases hlimit : (w.proxy.handleAccept e.remote now).2 = .overLimit
    · rw [if_pos hlimit] at hfirewall
      exact h.of_block hfirewall (if_pos hlimit)
    · rw [if_neg hlimit] at hfirewall
      exact h.of_eq hfirewall (if_neg hlimit)
  | rateLimited e now => exact h.of_block rfl rfl
  | packet e attack now =>
    have hfirewall := w.proxy.processPacket_firewall h.sound e.remote attack now
    have hblocked := FirewallManager.isBlocked_snd h.sound e.remote now
    by_cases hattack : e.remote ∉ w.proxy.firewall.blacklist ∧ attack
    · rw [if_pos hattack] at hfirewall
      refine h.of_block hfirewall (if_pos ?_)
      rw [hblocked, decide_eq_true_eq]
      exact hattack
    · rw [if_neg hattack] at hfirewall
      refine h.of_eq hfirewall (if_neg ?_)
      rw [hblocked, decide_eq_true_eq]
      exact hattack
  | ban a now =>
    refine tracked_of_firewall (congrArg Proxy.firewall (w.proxy.control_ban a.dotted now))
      (FirewallManager.sound_blockIp h.sound a.dotted now) fun e => ?_
    change e.remote ∈ w.proxy.firewall.blacklist ++ [a.dotted] ↔ e ∈ w.past.automatic
    rw [← h.listed, List.mem_append, List.mem_singleton]
    exact or_iff_left (remote_ne_dotted e a)
  | unban a now =>
    refine tracked_of_firewall (congrArg Proxy.firewall (w.proxy.control_unban a.dotted now))
      (FirewallManager.sound_unblockIp h.sound a.dotted) fun e => ?_
    change e.remote ∈ w.proxy.firewall.blacklist.erase a.dotted ↔ e ∈ w.past.automatic
    rw [← h.listed]
    exact List.mem_erase_of_ne (remote_ne_dotted e a)
  | clearBans now =>
    exact tracked_of_firewall (congrArg Proxy.firewall (w.proxy.control_clearBans now))
      (FirewallManager.sound_clearBans h.sound)
      fun e => iff_of_false List.not_mem_nil List.not_mem_nil
  | close id => exact h.of_eq (w.proxy.closeSession_firewall id) rfl
  | heartbeat id now => exact h.of_eq rfl rfl
  | expire id now => exact h.of_eq (w.proxy.expireSession_firewall id now) rfl
  | sweep e now => exact h.of_eq (w.proxy.sweepTracker_firewall e.remote now) rfl

/-- What becomes of a connection does not depend on the bans: whatever address is banned or
unbanned just before, the outcome is the same. -/
theorem outcome_ban {w : World} (h : w.Tracked) (a : Address) (time : ℤ) (e : Endpoint) (now : ℤ) :
    ((w.step (.ban a time)).proxy.handleAccept e.remote now).2 =
        (w.proxy.handleAccept e.remote now).2 ∧
      ((w.step (.unban a time)).proxy.handleAccept e.remote now).2 =
        (w.proxy.handleAccept e.remote now).2 := by
  have hban : (w.step (.ban a time)).proxy =
      { w.proxy with firewall := w.proxy.firewall.blockIp a.dotted time } :=
    w.proxy.control_ban a.dotted time
  have hunban : (w.step (.unban a time)).proxy =
      { w.proxy with firewall := w.proxy.firewall.unblockIp a.dotted } :=
    w.proxy.control_unban a.dotted time
  have hlisted : ∀ o, (∀ e : Endpoint, e ∈ (w.pastAfter o).automatic ↔ e ∈ w.past.automatic) →
      (w.step o).proxy.connectionTrackers = w.proxy.connectionTrackers →
      ((w.step o).proxy.handleAccept e.remote now).2 = (w.proxy.handleAccept e.remote now).2 := by
    intro o hautomatic htrackers
    have htracker : (w.step o).proxy.tracker e.remote now = w.proxy.tracker e.remote now := by
      rw [Proxy.tracker, Proxy.tracker, htrackers]
    have hsame : e.remote ∈ (w.step o).proxy.firewall.blacklist ↔
        e.remote ∈ w.proxy.firewall.blacklist := by
      rw [(tracked_step h o).listed, h.listed]
      exact hautomatic e
    rw [Proxy.handleAccept_outcome (tracked_step h o).sound,
      Proxy.handleAccept_outcome h.sound, htracker]
    simp only [hsame]
  exact ⟨hlisted _ (fun _ => Iff.rfl) (by rw [hban]), hlisted _ (fun _ => Iff.rfl) (by rw [hunban])⟩

/-! ## Runs -/

/-- The bans are enforced along a history exactly if the automatic blocks agree with them. -/
theorem enforced_iff (history : List Occurrence) :
    Along step Enforced start history ↔ Along step Agrees start history :=
  along_congr_of_invariant Tracked (fun _ o h => enforced_iff_agrees h o)
    (fun _ o h _ => tracked_step h o) history tracked_start

/-- A client of a banned address. -/
def bannedClient : List Occurrence :=
  [.ban ⟨10, 0, 0, 1⟩ 0, .accept ⟨⟨10, 0, 0, 1⟩, 5000⟩ 1]

/-- It gets a session a millisecond after the ban. -/
theorem bannedClient_not_enforced : ¬ Along step Enforced start bannedClient := by
  intro henforced
  have hregistered : ((start.step (.ban ⟨10, 0, 0, 1⟩ 0)).proxy.handleAccept
      (Endpoint.remote ⟨⟨10, 0, 0, 1⟩, 5000⟩) 1).2 = .registered := by decide +kernel
  have hbanned : (start.step (.ban ⟨10, 0, 0, 1⟩ 0)).past.Banned ⟨10, 0, 0, 1⟩ 1 :=
    ⟨0, rfl, by decide⟩
  exact henforced.2.1.1 hbanned hregistered

end World

end Blackstone.SecurityProxy
