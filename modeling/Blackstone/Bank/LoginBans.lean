import Blackstone.Bank.Sha1
import Blackstone.Library.OrderedMap
import Blackstone.Library.Runs

/-!
# Bans after failed logins

`intrusion_detection.cpp`. More than ten failed attempts ban an address for an hour. But the
sixth attempt in a minute bans it for five minutes, and a ban replaces the one before it, so
further attempts can shorten a ban. Along the logins at a clock that does not go back, bans are
kept exactly when no attempt is rate limited while a longer ban runs (`bansKept_iff`).

The clock is read once in a call.
-/

namespace Blackstone.Bank

open OrderedMap Runs

/-- `IntrusionAlert`. -/
structure IntrusionAlert where
  alertId : Str
  severity : Str
  type : Str
  source : Str
  details : Str
  timestamp : UInt64
  acknowledged : Bool

/-- `RateLimit`. -/
structure RateLimit where
  count : UInt64
  windowStart : UInt64

/-- `IntrusionDetectionSystem`. -/
structure IntrusionDetectionSystem where
  rateLimits : Std.TreeMap Str RateLimit
  alerts : List IntrusionAlert
  failedAttempts : Std.TreeMap Str UInt64
  banExpiry : Std.TreeMap Str UInt64

namespace IntrusionDetectionSystem

/-- The constructor. -/
def create : IntrusionDetectionSystem := ⟨∅, [], ∅, ∅⟩

/-- `IntrusionDetectionSystem::addAlert`, with the bytes that it draws. -/
def addAlert (s : IntrusionDetectionSystem) (now : UInt64)
    (noise severity type source details : Str) : IntrusionDetectionSystem :=
  let alert : IntrusionAlert :=
    { alertId := sha1 (severity ++ type ++ source ++ decimal now.toNat ++ noise)
      severity := severity
      type := type
      source := source
      details := details
      timestamp := now
      acknowledged := false }
  let alerts := s.alerts ++ [alert]
  { s with alerts := if 10000 < alerts.length then alerts.tail else alerts }

/-- `IntrusionDetectionSystem::isRateLimited`. -/
def isRateLimited (s : IntrusionDetectionSystem) (now : UInt64) (key : Str)
    (maxAttempts windowMs : UInt64) : Bool × IntrusionDetectionSystem :=
  match s.rateLimits[key]? with
  | none => (false, { s with rateLimits := s.rateLimits.insert key ⟨1, now⟩ })
  | some limit =>
    if windowMs < now - limit.windowStart then
      (false, { s with rateLimits := s.rateLimits.insert key ⟨1, now⟩ })
    else
      (decide (maxAttempts < limit.count + 1),
        { s with rateLimits := s.rateLimits.insert key { limit with count := limit.count + 1 } })

/-- `IntrusionDetectionSystem::banIp`. -/
def banIp (s : IntrusionDetectionSystem) (now : UInt64) (noise ip : Str) (durationMs : UInt64) :
    IntrusionDetectionSystem :=
  ({ s with banExpiry := s.banExpiry.insert ip (now + durationMs) }).addAlert now noise
    (ascii "HIGH") (ascii "IP_BANNED") ip
    (ascii "IP address banned for " ++ decimal durationMs.toNat ++ ascii "ms")

/-- `IntrusionDetectionSystem::isIpBanned`. -/
def isIpBanned (s : IntrusionDetectionSystem) (now : UInt64) (ip : Str) : Bool :=
  match s.banExpiry[ip]? with
  | none => false
  | some expiry => now < expiry

/-- The key of a user and an address. -/
def loginKey (userId ip : Str) : Str := ascii "login:" ++ userId ++ ascii ":" ++ ip

/-- `IntrusionDetectionSystem::checkLoginAttempt`, with the bytes that the alerts draw. -/
def checkLoginAttempt (s : IntrusionDetectionSystem) (now : UInt64) (noise : Str × Str)
    (userId ip : Str) (success : Bool) : Bool × IntrusionDetectionSystem :=
  let key := loginKey userId ip
  if !success then
    let limited := s.isRateLimited now key 5 60000
    if limited.1 then
      let s := limited.2.addAlert now noise.1 (ascii "HIGH") (ascii "BRUTE_FORCE") ip
        (ascii "Multiple failed login attempts for user " ++ userId)
      (false, s.banIp now noise.2 ip 300000)
    else
      let s := limited.2
      let failed := s.failedAttempts[key]?.getD 0 + 1
      let s := { s with failedAttempts := s.failedAttempts.insert key failed }
      (true, if 10 < failed then s.banIp now noise.1 ip 3600000 else s)
  else (true, { s with failedAttempts := s.failedAttempts.erase key })

/-! ## Runs -/

/-- A call of `checkLoginAttempt`, with the clock that it reads and the bytes that it draws. -/
structure Attempt where
  now : UInt64
  noise : Str × Str
  userId : Str
  ip : Str
  success : Bool

/-- The system after a call. -/
def step (s : IntrusionDetectionSystem) (call : Attempt) : IntrusionDetectionSystem :=
  (s.checkLoginAttempt call.now call.noise call.userId call.ip call.success).2

/-- An attempt is one too many in a minute. -/
def Limited (s : IntrusionDetectionSystem) (call : Attempt) : Prop :=
  call.success = false ∧ (s.isRateLimited call.now (loginKey call.userId call.ip) 5 60000).1 = true

/-- An attempt is counted, and more than ten are counted with it. -/
def Exceeds (s : IntrusionDetectionSystem) (call : Attempt) : Prop :=
  call.success = false ∧
    (s.isRateLimited call.now (loginKey call.userId call.ip) 5 60000).1 = false ∧
    10 < s.failedAttempts[loginKey call.userId call.ip]?.getD 0 + 1

/-- No ban is moved to an earlier time, and more than ten counted attempts ban an address for an
hour. -/
structure BansKept (calls : List Attempt) : Prop where
  raised : ∀ n, Raised (run step create (calls.take n)).banExpiry
    (run step create (calls.take (n + 1))).banExpiry
  held : ∀ n call, calls[n]? = some call → Exceeds (run step create (calls.take n)) call →
    ∀ m, n < m → ∀ clock : UInt64, call.now ≤ clock → clock.toNat < call.now.toNat + 3600000 →
      (run step create (calls.take m)).isIpBanned clock call.ip = true

/-- A limited attempt does not replace a longer ban, and an hour from now is a time of the
clock. -/
def Keeps (s : IntrusionDetectionSystem) (call : Attempt) : Prop :=
  (Limited s call → ∀ expiry, s.banExpiry[call.ip]? = some expiry →
    expiry ≤ call.now + 300000) ∧
  (Exceeds s call → call.now.toNat + 3600000 < 2 ^ 64)

/-! ## One call -/

section Step

variable {s : IntrusionDetectionSystem} {call : Attempt}

@[simp] theorem banExpiry_addAlert (s : IntrusionDetectionSystem) (now : UInt64)
    (noise severity type source details : Str) :
    (s.addAlert now noise severity type source details).banExpiry = s.banExpiry := rfl

@[simp] theorem banExpiry_banIp (s : IntrusionDetectionSystem) (now : UInt64) (noise ip : Str)
    (durationMs : UInt64) :
    (s.banIp now noise ip durationMs).banExpiry = s.banExpiry.insert ip (now + durationMs) := rfl

/-- The rate limit changes nothing but its own table. -/
theorem isRateLimited_eq (s : IntrusionDetectionSystem) (now : UInt64) (key : Str)
    (maxAttempts windowMs : UInt64) :
    ∃ limits,
      (s.isRateLimited now key maxAttempts windowMs).2 = { s with rateLimits := limits } := by
  rw [isRateLimited]
  cases s.rateLimits[key]? with
  | none => exact ⟨_, rfl⟩
  | some limit =>
    dsimp only
    split_ifs
    · exact ⟨_, rfl⟩
    · exact ⟨_, rfl⟩

theorem banExpiry_of_limited (h : Limited s call) :
    (s.step call).banExpiry = s.banExpiry.insert call.ip (call.now + 300000) := by
  obtain ⟨limits, hlimits⟩ :=
    isRateLimited_eq s call.now (loginKey call.userId call.ip) 5 60000
  simp only [step, checkLoginAttempt, h.1, h.2, hlimits, Bool.not_false, if_true, banExpiry_banIp,
    banExpiry_addAlert]

theorem banExpiry_of_exceeds (h : Exceeds s call) :
    (s.step call).banExpiry = s.banExpiry.insert call.ip (call.now + 3600000) := by
  obtain ⟨limits, hlimits⟩ :=
    isRateLimited_eq s call.now (loginKey call.userId call.ip) 5 60000
  simp only [step, checkLoginAttempt, h.1, h.2.1, h.2.2, hlimits, Bool.not_false, if_true,
    Bool.false_eq_true, if_false, banExpiry_banIp]

theorem banExpiry_of_not (hlimited : ¬ Limited s call) (hexceeds : ¬ Exceeds s call) :
    (s.step call).banExpiry = s.banExpiry := by
  obtain ⟨limits, hlimits⟩ :=
    isRateLimited_eq s call.now (loginKey call.userId call.ip) 5 60000
  cases hsuccess : call.success with
  | true =>
    simp only [step, checkLoginAttempt, hsuccess, Bool.not_true, Bool.false_eq_true, if_false]
  | false =>
    have hallowed : (s.isRateLimited call.now (loginKey call.userId call.ip) 5 60000).1 = false :=
      Bool.eq_false_iff.mpr (fun h => hlimited ⟨hsuccess, h⟩)
    have hfew : ¬ 10 < s.failedAttempts[loginKey call.userId call.ip]?.getD 0 + 1 :=
      fun h => hexceeds ⟨hsuccess, hallowed, h⟩
    simp only [step, checkLoginAttempt, hsuccess, hallowed, hlimits, hfew, Bool.not_false, if_true,
      Bool.false_eq_true, if_false]

theorem toNat_add_hour (now : UInt64) :
    (now + 3600000).toNat = (now.toNat + 3600000) % 2 ^ 64 := UInt64.toNat_add _ _

/-- No ban ends later than an hour after the clock. -/
def WithinHour (clock : ℕ) (s : IntrusionDetectionSystem) : Prop :=
  ∀ (ip : Str) (expiry : UInt64), s.banExpiry[ip]? = some expiry → expiry.toNat ≤ clock + 3600000

theorem withinHour_insert {clock : UInt64} (h : WithinHour clock.toNat s) {ip : Str}
    {duration : UInt64} (hduration : duration.toNat ≤ 3600000) (ip' : Str) (expiry : UInt64)
    (hlookup : (s.banExpiry.insert ip (clock + duration))[ip']? = some expiry) :
    expiry.toNat ≤ clock.toNat + 3600000 := by
  rw [getElem?_insert_eq] at hlookup
  split_ifs at hlookup
  · rw [← Option.some.inj hlookup, UInt64.toNat_add]
    exact (Nat.mod_le _ _).trans (Nat.add_le_add_left hduration _)
  · exact h ip' expiry hlookup

theorem withinHour_step (h : WithinHour call.now.toNat s) :
    WithinHour call.now.toNat (s.step call) := by
  intro ip expiry hlookup
  by_cases hlimited : Limited s call
  · rw [banExpiry_of_limited hlimited] at hlookup
    exact withinHour_insert h (by decide) ip expiry hlookup
  · by_cases hexceeds : Exceeds s call
    · rw [banExpiry_of_exceeds hexceeds] at hlookup
      exact withinHour_insert h (by decide) ip expiry hlookup
    · rw [banExpiry_of_not hlimited hexceeds] at hlookup
      exact h ip expiry hlookup

/-- A limited attempt keeps the bans exactly when no longer ban runs. -/
theorem raised_of_limited_iff (h : Limited s call) :
    Raised s.banExpiry (s.step call).banExpiry ↔
      ∀ expiry, s.banExpiry[call.ip]? = some expiry → expiry ≤ call.now + 300000 := by
  rw [banExpiry_of_limited h]
  exact raised_insert_iff call.ip _

/-- Where an hour from now is a time of the clock, a ban for an hour replaces none that is
longer. -/
theorem raised_of_exceeds (h : WithinHour call.now.toNat s) (hexceeds : Exceeds s call)
    (htime : call.now.toNat + 3600000 < 2 ^ 64) :
    Raised s.banExpiry (s.step call).banExpiry := by
  rw [banExpiry_of_exceeds hexceeds]
  apply (raised_insert_iff call.ip _).mpr
  intro old hold
  rw [UInt64.le_iff_toNat_le, toNat_add_hour, Nat.mod_eq_of_lt htime]
  exact h call.ip old hold

theorem raised_of_keeps (h : WithinHour call.now.toNat s) (hkeeps : Keeps s call) :
    Raised s.banExpiry (s.step call).banExpiry := by
  by_cases hlimited : Limited s call
  · exact (raised_of_limited_iff hlimited).mpr (hkeeps.1 hlimited)
  · by_cases hexceeds : Exceeds s call
    · exact raised_of_exceeds h hexceeds (hkeeps.2 hexceeds)
    · rw [banExpiry_of_not hlimited hexceeds]
      exact Raised.refl _

end Step

/-! ## Runs -/

theorem withinHour_create (clock : ℕ) : WithinHour clock create := by
  intro ip expiry hlookup
  rw [create, Std.TreeMap.getElem?_emptyc] at hlookup
  cases hlookup

/-- Bans only get longer on the way from one state to a later one. -/
theorem raised_of_le {calls : List Attempt}
    (h : ∀ n, Raised (run step create (calls.take n)).banExpiry
      (run step create (calls.take (n + 1))).banExpiry) {n m : ℕ} (hle : n ≤ m) :
    Raised (run step create (calls.take n)).banExpiry
      (run step create (calls.take m)).banExpiry := by
  induction m, hle using Nat.le_induction with
  | base => exact Raised.refl _
  | succ m hle ih => exact ih.trans (h m)

/-- No ban ends later than an hour from now. -/
theorem along_withinHour {calls : List Attempt}
    (hsorted : calls.Pairwise (fun a b => a.now ≤ b.now)) :
    Along step (fun s call => WithinHour call.now.toNat s) create calls := by
  have hadvance : ∀ clock later s, WithinHour clock s → clock ≤ later → WithinHour later s :=
    fun clock later s h hle ip expiry hlookup =>
      (h ip expiry hlookup).trans (Nat.add_le_add_right hle _)
  have hstep : ∀ s (call : Attempt), WithinHour call.now.toNat s →
      WithinHour call.now.toNat (s.step call) := fun s call h => withinHour_step h
  exact along_of_nondecreasing hadvance hstep (fun call _ => withinHour_create _)
    (hsorted.imp (fun h => UInt64.le_iff_toNat_le.mp h))

theorem raised_of_along {calls : List Attempt}
    (hwithin : Along step (fun s call => WithinHour call.now.toNat s) create calls)
    (hkeeps : Along step Keeps create calls) (n : ℕ) :
    Raised (run step create (calls.take n)).banExpiry
      (run step create (calls.take (n + 1))).banExpiry := by
  cases hcall : calls[n]? with
  | none =>
    rw [List.take_add_one, hcall, Option.toList_none, List.append_nil]
    exact Raised.refl _
  | some call =>
    rw [run_take_succ hcall]
    exact raised_of_keeps (along_iff_getElem?.mp hwithin n call hcall)
      (along_iff_getElem?.mp hkeeps n call hcall)

/-- Where bans are kept, a limited attempt replaces no longer one, and the clock goes on for an
hour after each ban for an hour. -/
theorem BansKept.keeps {calls : List Attempt} (h : BansKept calls) {n : ℕ} {call : Attempt}
    (hcall : calls[n]? = some call) : Keeps (run step create (calls.take n)) call := by
  refine ⟨fun hlimited => ?_, fun hexceeds => ?_⟩
  · have hraised := h.raised n
    rw [run_take_succ hcall] at hraised
    exact (raised_of_limited_iff hlimited).mp hraised
  · have hbanned := h.held n call hcall hexceeds (n + 1) n.lt_succ_self call.now
      UInt64.le_rfl (Nat.lt_add_of_pos_right (by decide))
    rw [run_take_succ hcall, isIpBanned, banExpiry_of_exceeds hexceeds, getElem?_insert_eq,
      if_pos rfl] at hbanned
    have hlt := UInt64.lt_iff_toNat_lt.mp (of_decide_eq_true hbanned)
    rw [toNat_add_hour] at hlt
    have hnow := call.now.toNat_lt
    omega

/-- At clock values that do not decrease, the bans are kept exactly when no limited attempt
replaces a longer ban. -/
theorem bansKept_iff (calls : List Attempt)
    (hsorted : calls.Pairwise (fun a b => a.now ≤ b.now)) :
    BansKept calls ↔ Along step Keeps create calls := by
  constructor
  · intro h
    exact along_iff_getElem?.mpr (fun n call hcall => h.keeps hcall)
  · intro hkeeps
    have hraised := raised_of_along (along_withinHour hsorted) hkeeps
    refine ⟨hraised, fun n call hcall hexceeds m hlt clock _ hclock => ?_⟩
    have htime := (along_iff_getElem?.mp hkeeps n call hcall).2 hexceeds
    have hban : (run step create (calls.take (n + 1))).banExpiry[call.ip]? =
        some (call.now + 3600000) := by
      rw [run_take_succ hcall, banExpiry_of_exceeds hexceeds, getElem?_insert_eq, if_pos rfl]
    obtain ⟨expiry, hexpiry, hle⟩ := raised_of_le hraised hlt call.ip _ hban
    rw [UInt64.le_iff_toNat_le, toNat_add_hour, Nat.mod_eq_of_lt htime] at hle
    rw [isIpBanned, hexpiry]
    exact decide_eq_true (UInt64.lt_iff_toNat_lt.mpr (hclock.trans_le hle))

/-- A failed attempt and a login. -/
theorem bansKept_login :
    BansKept [⟨0, ([], []), ascii "u", ascii "i", false⟩,
      ⟨9, ([], []), ascii "u", ascii "i", true⟩] :=
  (bansKept_iff _ (by decide)).mpr
    ⟨⟨fun h => absurd h.2 (by decide), fun h => absurd h.2.2 (by decide)⟩,
      ⟨fun h => absurd h.1 (by decide), fun h => absurd h.1 (by decide)⟩, trivial⟩

/-- Failed attempts of one user, five in each of three minutes and one more. -/
def sixteenAttempts : List Attempt :=
  List.replicate 5 ⟨0, ([], []), ascii "u", ascii "i", false⟩ ++
    (List.replicate 5 ⟨60001, ([], []), ascii "u", ascii "i", false⟩ ++
      List.replicate 6 ⟨120002, ([], []), ascii "u", ascii "i", false⟩)

/-- The last attempt makes a ban for an hour one for five minutes. -/
theorem ban_shortened :
    (run step create (sixteenAttempts.take 15)).banExpiry[ascii "i"]? = some 3720002 ∧
      (run step create (sixteenAttempts.take 16)).banExpiry[ascii "i"]? = some 420002 ∧
      ¬ BansKept sixteenAttempts := by
  have hbefore : (run step create (sixteenAttempts.take 15)).banExpiry[ascii "i"]? =
      some 3720002 := by decide +kernel
  have hafter : (run step create (sixteenAttempts.take 16)).banExpiry[ascii "i"]? =
      some 420002 := by decide +kernel
  refine ⟨hbefore, hafter, fun h => ?_⟩
  obtain ⟨expiry, hexpiry, hle⟩ := h.raised 15 _ _ hbefore
  rw [hafter] at hexpiry
  rw [← Option.some.inj hexpiry] at hle
  exact absurd hle (by decide)

end IntrusionDetectionSystem

end Blackstone.Bank
