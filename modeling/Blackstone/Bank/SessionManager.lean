import Blackstone.Bank.Sha1
import Blackstone.Library.OrderedMap
import Blackstone.Library.Runs
import Blackstone.Library.Traces

/-!
# Login sessions

`SessionManager` of `multi_factor.cpp` without its mutex; every reading of the clock is an input. A
session that has expired stays in the table until `validateSession` or `cleanupExpiredSessions`
comes across it (`kept_iff`), and until then `getUserId` still knows its user. On a clock that has
not gone back this makes no difference to `validateSession`, however the calls are mixed
(`validateSession_iff`).
-/

namespace Blackstone.Bank

open OrderedMap Runs Traces

/-- `SessionManager::Session`. -/
structure Session where
  sessionId : Str
  userId : Str
  createdAt : UInt64
  expiresAt : UInt64
  ipAddress : Str
  userAgent : Str

structure SessionManager where
  activeSessions : Std.TreeMap Str Session

namespace SessionManager

def create : SessionManager := ⟨∅⟩

/-- The session that `createSession` makes, with its two readings of the clock and the bytes of its
random number generator. -/
def newSession (userId ip userAgent : Str) (lifetimeMs hashedAt : UInt64) (noise : Str)
    (now : UInt64) : Session where
  sessionId := sha1 (userId ++ ip ++ decimal hashedAt.toNat ++ noise)
  userId := userId
  createdAt := now
  expiresAt := now + lifetimeMs
  ipAddress := ip
  userAgent := userAgent

/-- `createSession`. -/
def createSession (manager : SessionManager) (userId ip userAgent : Str)
    (lifetimeMs hashedAt : UInt64) (noise : Str) (now : UInt64) : Str × SessionManager :=
  let s := newSession userId ip userAgent lifetimeMs hashedAt noise now
  (s.sessionId, ⟨manager.activeSessions.insert s.sessionId s⟩)

/-- `validateSession`. -/
def validateSession (manager : SessionManager) (sessionId : Str) (now : UInt64) :
    Bool × SessionManager :=
  match manager.activeSessions[sessionId]? with
  | none => (false, manager)
  | some s =>
    if now > s.expiresAt then (false, ⟨manager.activeSessions.erase sessionId⟩)
    else (true, manager)

/-- `invalidateSession`. -/
def invalidateSession (manager : SessionManager) (sessionId : Str) : Bool × SessionManager :=
  (manager.activeSessions.contains sessionId, ⟨manager.activeSessions.erase sessionId⟩)

/-- `getUserId`. -/
def getUserId (manager : SessionManager) (sessionId : Str) : Str :=
  match manager.activeSessions[sessionId]? with
  | none => []
  | some s => s.userId

/-- `cleanupExpiredSessions`. -/
def cleanupExpiredSessions (manager : SessionManager) (now : UInt64) : SessionManager :=
  ⟨manager.activeSessions.filter fun _ s => !(now > s.expiresAt : Bool)⟩

end SessionManager

/-! ## Calls -/

/-- The calls that may change the table. -/
inductive SessionCall where
  | createSession (userId ip userAgent : Str) (lifetimeMs hashedAt : UInt64) (noise : Str)
    (now : UInt64)
  | validateSession (sessionId : Str) (now : UInt64)
  | invalidateSession (sessionId : Str)
  | cleanupExpiredSessions (now : UInt64)

def sessionStep (manager : SessionManager) : SessionCall → SessionManager
  | .createSession userId ip userAgent lifetimeMs hashedAt noise now =>
    (manager.createSession userId ip userAgent lifetimeMs hashedAt noise now).2
  | .validateSession sessionId now => (manager.validateSession sessionId now).2
  | .invalidateSession sessionId => (manager.invalidateSession sessionId).2
  | .cleanupExpiredSessions now => manager.cleanupExpiredSessions now

namespace SessionCall

/-- The session that a call makes. -/
def opened : SessionCall → Option Session
  | .createSession userId ip userAgent lifetimeMs hashedAt noise now =>
    some (SessionManager.newSession userId ip userAgent lifetimeMs hashedAt noise now)
  | _ => none

/-- The times at which a call tests sessions. -/
def testedAt (sessionId : Str) : SessionCall → Option UInt64
  | .validateSession id now => if id = sessionId then some now else none
  | .cleanupExpiredSessions now => some now
  | _ => none

/-- A call makes the session under this id. -/
def Opens (sessionId : Str) (s : Session) (call : SessionCall) : Prop :=
  call.opened = some s ∧ s.sessionId = sessionId

/-- A call puts another session under the id, or ends the one that is there. -/
def Closes (sessionId : Str) (call : SessionCall) : Prop :=
  (∃ s, call.Opens sessionId s) ∨ call = .invalidateSession sessionId

/-- A call comes across the session after its end. -/
def Expires (sessionId : Str) (s : Session) (call : SessionCall) : Prop :=
  ∃ now ∈ call.testedAt sessionId, s.expiresAt < now

end SessionCall

open SessionCall

section Step

/-- `validateSession` removes what has expired, and nothing under other ids. -/
theorem getElem?_validateSession (manager : SessionManager) (id sessionId : Str) (now : UInt64) :
    (manager.validateSession id now).2.activeSessions[sessionId]? =
      if id = sessionId then
        manager.activeSessions[sessionId]?.filter fun s => !(now > s.expiresAt : Bool)
      else manager.activeSessions[sessionId]? := by
  unfold SessionManager.validateSession
  cases hlookup : manager.activeSessions[id]? with
  | none =>
    split_ifs with hid
    · rw [← hid, hlookup, Option.filter_none]
    · rfl
  | some s =>
    by_cases hexpired : now > s.expiresAt
    · simp only [if_pos hexpired, getElem?_erase_eq]
      split_ifs with hid
      · rw [← hid, hlookup, Option.filter_some, decide_eq_true hexpired]
        rfl
      · rfl
    · simp only [if_neg hexpired]
      split_ifs with hid
      · rw [← hid, hlookup, Option.filter_some, decide_eq_false hexpired]
        rfl
      · rfl

/-- What one call leaves under an id. -/
theorem getElem?_sessionStep (manager : SessionManager) (sessionId : Str) (s : Session)
    (call : SessionCall) :
    (sessionStep manager call).activeSessions[sessionId]? = some s ↔
      call.Opens sessionId s ∨ (manager.activeSessions[sessionId]? = some s ∧
        ¬ (call.Closes sessionId ∨ call.Expires sessionId s)) := by
  cases call with
  | createSession userId ip userAgent lifetimeMs hashedAt noise now =>
    simp only [sessionStep, SessionManager.createSession, getElem?_insert_eq, Opens, Closes,
      Expires, opened, testedAt, Option.some.injEq]
    generalize SessionManager.newSession userId ip userAgent lifetimeMs hashedAt noise now = new
    by_cases hid : new.sessionId = sessionId
    · simp only [hid, if_true, Option.some.injEq, exists_eq_left', true_or, not_true_eq_false,
        and_false, or_false]
      exact ⟨fun h => ⟨h, h ▸ hid⟩, fun h => h.1⟩
    · have hother : ¬ (new = s ∧ s.sessionId = sessionId) := by
        rintro ⟨rfl, h⟩
        exact hid h
      simp [hid, hother]
  | validateSession id now =>
    simp only [sessionStep, getElem?_validateSession, Opens, Closes, Expires, opened, testedAt]
    by_cases hid : id = sessionId
    · simp [hid, Option.filter_eq_some_iff]
    · simp [hid]
  | invalidateSession id =>
    simp only [sessionStep, SessionManager.invalidateSession, getElem?_erase_eq, Opens, Closes,
      Expires, opened, testedAt]
    by_cases hid : id = sessionId
    · simp [hid]
    · simp [hid]
  | cleanupExpiredSessions now =>
    simp [sessionStep, SessionManager.cleanupExpiredSessions, Option.filter_eq_some_iff, Opens,
      Closes, Expires, opened, testedAt]

end Step

/-! ## Runs -/

/-- The session was made under this id, and no call has replaced or invalidated it since. -/
def Current (calls : List SessionCall) (sessionId : Str) (s : Session) : Prop :=
  Since (Opens sessionId s) (Closes sessionId) calls

/-- In every run, a session is in the table exactly when it is the current one and no call has come
across it after its end. -/
theorem kept_iff (calls : List SessionCall) (sessionId : Str) (s : Session) :
    (run sessionStep SessionManager.create calls).activeSessions[sessionId]? = some s ↔
      Since (Opens sessionId s) (fun call => call.Closes sessionId ∨ call.Expires sessionId s)
        calls := by
  induction calls using List.reverseRecOn with
  | nil => simp [SessionManager.create]
  | append_singleton calls call ih => rw [run_concat, getElem?_sessionStep, ih, since_concat]

/-- As long as a session lasts, it is in the table. -/
theorem kept_iff_current {calls : List SessionCall} {sessionId : Str} {s : Session} {now : UInt64}
    (hclock : ∀ call ∈ calls, ∀ t ∈ call.testedAt sessionId, t ≤ now) (hlasts : now ≤ s.expiresAt) :
    (run sessionStep SessionManager.create calls).activeSessions[sessionId]? = some s ↔
      Current calls sessionId s := by
  rw [kept_iff]
  refine since_congr fun call hcall => or_iff_left ?_
  rintro ⟨t, ht, hexpired⟩
  have hpast := hclock call hcall t ht
  exact UInt64.not_lt.mpr (UInt64.le_trans hpast hlasts) hexpired

/-- On a clock that has not gone back, however the calls were mixed: a session is valid exactly when
it is current and lasts, its user is then known, and these are the sessions that a cleanup
leaves. -/
theorem validateSession_iff {calls : List SessionCall} {now : UInt64} (sessionId : Str)
    (hclock : ∀ call ∈ calls, ∀ t ∈ call.testedAt sessionId, t ≤ now)
    {manager : SessionManager} (hmanager : manager = run sessionStep SessionManager.create calls) :
    ((manager.validateSession sessionId now).1 = true ↔
        ∃ s, Current calls sessionId s ∧ now ≤ s.expiresAt) ∧
      (∀ s, Current calls sessionId s → now ≤ s.expiresAt →
        manager.getUserId sessionId = s.userId) ∧
      ∀ s, (manager.cleanupExpiredSessions now).activeSessions[sessionId]? = some s ↔
        Current calls sessionId s ∧ now ≤ s.expiresAt := by
  subst hmanager
  have hkept : ∀ s, (run sessionStep SessionManager.create calls).activeSessions[sessionId]? =
      some s ∧ now ≤ s.expiresAt ↔ Current calls sessionId s ∧ now ≤ s.expiresAt :=
    fun s => and_congr_left fun hlasts => kept_iff_current hclock hlasts
  refine ⟨?_, fun s hcurrent hlasts => ?_, fun s => ?_⟩
  · simp only [← hkept]
    unfold SessionManager.validateSession
    cases hlookup : (run sessionStep SessionManager.create calls).activeSessions[sessionId]? with
    | none => simp
    | some found =>
      by_cases hexpired : found.expiresAt < now
      · simp [hexpired]
      · simp [hexpired, UInt64.not_lt.mp hexpired]
  · rw [SessionManager.getUserId, ((hkept s).mpr ⟨hcurrent, hlasts⟩).1]
  · rw [← hkept]
    simp [SessionManager.cleanupExpiredSessions, Option.filter_eq_some_iff]

/-- A session that is tested while it lasts. -/
theorem validateSession_iff_one :
    ((run sessionStep SessionManager.create
      [.createSession [1] [2] [3] 10 0 [] 5]).validateSession
        (SessionManager.newSession [1] [2] [3] 10 0 [] 5).sessionId 7).1 = true := by
  have hclock : ∀ call ∈ [SessionCall.createSession [1] [2] [3] 10 0 [] 5], ∀ t ∈ call.testedAt
      (SessionManager.newSession [1] [2] [3] 10 0 [] 5).sessionId, t ≤ 7 := by
    simp [testedAt]
  refine (validateSession_iff _ hclock rfl).1.mpr
    ⟨SessionManager.newSession [1] [2] [3] 10 0 [] 5, ?_, ?_⟩
  · exact ⟨[], _, [], rfl, ⟨rfl, rfl⟩, fun _ h => nomatch h⟩
  · decide

end Blackstone.Bank
