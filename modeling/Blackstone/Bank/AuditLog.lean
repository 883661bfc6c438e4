import Mathlib.Data.List.Nodup
import Blackstone.Bank.Sha1
import Blackstone.Library.BoundedLog
import Blackstone.Library.DefaultMap
import Blackstone.Library.Runs

/-!
# The audit log

`audit.cpp`. The log keeps the last `maxEntries` entries, and for each user the ids of
everything that was ever logged for that user. Ids of entries that are gone find nothing, so
that a user gets the entries that are left, and all of these carry a valid signature
(`auditLog_agrees`).
-/

namespace Blackstone.Bank

open BoundedLog DefaultMap Runs

/-- `AuditLog::AuditEntry`. -/
structure AuditEntry where
  entryId : Str
  userId : Str
  action : Str
  details : Str
  timestamp : UInt64
  ipAddress : Str
  signature : Str

/-- `AuditLog`, without its lock. -/
structure AuditLog where
  entries : List AuditEntry
  userEntries : Map Str (List Str)
  maxEntries : Nat
  auditKey : Str

/-- The constructor. -/
def AuditLog.create (max : Nat) (key : Str) : AuditLog where
  entries := []
  userEntries := ∅
  maxEntries := max
  auditKey := key

/-- `AuditLog::signEntry`. -/
def signEntry (auditKey : Str) (entry : AuditEntry) : Str :=
  sha1Hmac auditKey (entry.entryId ++ entry.userId ++ entry.action ++ entry.details ++
    decimal entry.timestamp.toNat ++ entry.ipAddress)

/-- `AuditLog::verifyEntry`. -/
def verifyEntry (auditKey : Str) (entry : AuditEntry) : Bool :=
  decide (signEntry auditKey entry = entry.signature)

/-- A call of `log`, with the two readings of the clock and the random bytes. -/
structure LogCall where
  userId : Str
  action : Str
  details : Str
  ipAddress : Str
  idTime : UInt64
  bytes : Str
  timestamp : UInt64

/-- The id that a call generates. -/
def LogCall.entryId (call : LogCall) : Str :=
  sha1 (call.userId ++ call.action ++ decimal call.idTime.toNat ++ call.bytes)

/-- The entry that a call logs. -/
def LogCall.entry (auditKey : Str) (call : LogCall) : AuditEntry :=
  let entry : AuditEntry :=
    { entryId := call.entryId
      userId := call.userId
      action := call.action
      details := call.details
      timestamp := call.timestamp
      ipAddress := call.ipAddress
      signature := [] }
  { entry with signature := signEntry auditKey entry }

/-- `AuditLog::log`. -/
def AuditLog.log (s : AuditLog) (call : LogCall) : AuditLog :=
  let entry := call.entry s.auditKey
  { s with
    entries := evictPush s.maxEntries s.entries entry
    userEntries := modifyAt s.userEntries call.userId (· ++ [entry.entryId]) }

/-- The inner loop of `AuditLog::getEntriesForUser`. -/
def findEntry (entries : List AuditEntry) (entryId : Str) : Option AuditEntry :=
  entries.find? fun entry => entry.entryId = entryId

/-- `AuditLog::getEntriesForUser`. -/
def AuditLog.getEntriesForUser (s : AuditLog) (userId : Str) (limit : Nat) : List AuditEntry :=
  match s.userEntries.lookup userId with
  | none => []
  | some ids => (ids.filterMap (findEntry s.entries)).take limit

/-- `AuditLog::verifyIntegrity`. -/
def AuditLog.verifyIntegrity (s : AuditLog) : Bool := s.entries.all (verifyEntry s.auditKey)

/-! ## The history of a log -/

/-- The log after some calls. -/
structure AuditLogAfter (max : Nat) (key : Str) (calls : List LogCall) (s : AuditLog) : Prop where
  maxEntries : s.maxEntries = max
  auditKey : s.auditKey = key
  entries : s.entries = (calls.map (LogCall.entry key)).rtake max
  userEntries : ∀ user, readAt s.userEntries user =
    (calls.filter (fun call => call.userId = user)).map LogCall.entryId

theorem auditLogAfter_create (max : Nat) (key : Str) :
    AuditLogAfter max key [] (AuditLog.create max key) where
  maxEntries := rfl
  auditKey := rfl
  entries := (List.rtake_nil max).symm
  userEntries user := readAt_empty user

theorem AuditLogAfter.step {max : Nat} {key : Str} (hmax : 0 < max) {calls : List LogCall}
    {s : AuditLog} (h : AuditLogAfter max key calls s) (call : LogCall) :
    AuditLogAfter max key (calls ++ [call]) (s.log call) where
  maxEntries := h.maxEntries
  auditKey := h.auditKey
  entries := by
    show evictPush s.maxEntries s.entries (call.entry s.auditKey) = _
    rw [h.maxEntries, h.auditKey, h.entries, evictPush_rtake hmax, List.map_append]
    rfl
  userEntries user := by
    show readAt (modifyAt s.userEntries call.userId (· ++ [call.entryId])) user = _
    rw [readAt_modifyAt, List.filter_append, List.map_append, ← h.userEntries user]
    by_cases huser : user = call.userId
    · rw [if_pos huser, huser]
      simp
    · rw [if_neg huser]
      simp [Ne.symm huser]

theorem auditLogAfter_run {max : Nat} (hmax : 0 < max) (key : Str) (calls : List LogCall) :
    AuditLogAfter max key calls (run AuditLog.log (AuditLog.create max key) calls) := by
  induction calls using List.reverseRecOn with
  | nil => exact auditLogAfter_create max key
  | append_singleton calls call ih =>
    rw [run, List.foldl_append]
    exact ih.step hmax call

/-! ## Looking up ids -/

theorem findEntry_eq_none {entries : List AuditEntry} {entryId : Str}
    (h : entryId ∉ entries.map AuditEntry.entryId) : findEntry entries entryId = none := by
  rw [findEntry, List.find?_eq_none]
  intro entry hentry heq
  apply h
  rw [← of_decide_eq_true heq]
  exact List.mem_map_of_mem hentry

/-- Distinct ids find the entries that they belong to. -/
theorem findEntry_eq_some {entries : List AuditEntry}
    (hdistinct : (entries.map AuditEntry.entryId).Nodup) {entry : AuditEntry}
    (hentry : entry ∈ entries) : findEntry entries entry.entryId = some entry := by
  rw [findEntry]
  cases hfound : entries.find? (fun other => other.entryId = entry.entryId) with
  | none =>
    have hnone := List.find?_eq_none.mp hfound entry hentry
    exact absurd (decide_eq_true rfl) hnone
  | some other =>
    have hid := List.find?_some hfound
    rw [List.inj_on_of_nodup_map hdistinct (List.mem_of_find?_eq_some hfound) hentry
      (of_decide_eq_true hid)]

/-- Looking up distinct ids among the entries that are kept finds those that are kept. -/
theorem filterMap_findEntry {all gone kept : List AuditEntry} (hall : gone ++ kept = all)
    (hdistinct : (all.map AuditEntry.entryId).Nodup) (p : AuditEntry → Bool) :
    ((all.filter p).map AuditEntry.entryId).filterMap (findEntry kept) = kept.filter p := by
  rw [← hall, List.map_append, List.nodup_append'] at hdistinct
  obtain ⟨-, hkept, hdisjoint⟩ := hdistinct
  have hgone : (gone.filter p).filterMap (findEntry kept ∘ AuditEntry.entryId) = [] := by
    rw [List.filterMap_eq_nil_iff]
    intro entry hentry
    exact findEntry_eq_none
      (hdisjoint (List.mem_map_of_mem (List.mem_of_mem_filter hentry)))
  have hfound : (kept.filter p).filterMap (findEntry kept ∘ AuditEntry.entryId) =
      (kept.filter p).filterMap some := by
    apply List.filterMap_congr
    intro entry hentry
    exact findEntry_eq_some hkept (List.mem_of_mem_filter hentry)
  rw [← hall, List.filterMap_map, List.filter_append, List.filterMap_append, hgone, hfound,
    List.filterMap_some, List.nil_append]

theorem AuditLogAfter.getEntriesForUser {max : Nat} {key : Str} {calls : List LogCall}
    {s : AuditLog} (h : AuditLogAfter max key calls s)
    (hdistinct : (calls.map LogCall.entryId).Nodup) (user : Str) (limit : Nat) :
    s.getEntriesForUser user limit =
      (s.entries.filter (fun entry => entry.userId = user)).take limit := by
  have hread : s.getEntriesForUser user limit =
      ((readAt s.userEntries user).filterMap (findEntry s.entries)).take limit := by
    rw [AuditLog.getEntriesForUser, readAt]
    cases s.userEntries.lookup user with
    | none => exact List.take_nil.symm
    | some ids => rfl
  have hids : (calls.filter (fun call => call.userId = user)).map LogCall.entryId =
      ((calls.map (LogCall.entry key)).filter (fun entry => entry.userId = user)).map
        AuditEntry.entryId := by
    rw [List.filter_map, List.map_map]
    rfl
  have hall : ((calls.map (LogCall.entry key)).map AuditEntry.entryId).Nodup := by
    rw [List.map_map]
    exact hdistinct
  rw [hread, h.userEntries, hids, h.entries,
    filterMap_findEntry (rdrop_append_rtake _ max) hall]

theorem AuditLogAfter.verifyIntegrity {max : Nat} {key : Str} {calls : List LogCall}
    {s : AuditLog} (h : AuditLogAfter max key calls s) : s.verifyIntegrity = true := by
  rw [AuditLog.verifyIntegrity, List.all_eq_true]
  intro entry hentry
  rw [h.entries] at hentry
  obtain ⟨call, -, rfl⟩ := List.mem_map.mp (List.mem_of_mem_drop hentry)
  rw [h.auditKey]
  exact decide_eq_true rfl

/-- After any calls that generate distinct ids, the log holds the last `max` entries logged, a
user gets the first of those that were logged for the user, and all signatures are valid. -/
theorem auditLog_agrees {max : Nat} (hmax : 0 < max) (key : Str) (calls : List LogCall)
    (hdistinct : (calls.map LogCall.entryId).Nodup) :
    (run AuditLog.log (AuditLog.create max key) calls).entries =
        (calls.map (LogCall.entry key)).rtake max ∧
      (∀ user limit,
        (run AuditLog.log (AuditLog.create max key) calls).getEntriesForUser user limit =
          ((run AuditLog.log (AuditLog.create max key) calls).entries.filter
            (fun entry => entry.userId = user)).take limit) ∧
      (run AuditLog.log (AuditLog.create max key) calls).verifyIntegrity = true := by
  have hafter := auditLogAfter_run hmax key calls
  exact ⟨hafter.entries, hafter.getEntriesForUser hdistinct, hafter.verifyIntegrity⟩

/-- A call for a user at some time. -/
def loginCall (user : Str) (time : UInt64) : LogCall where
  userId := user
  action := ascii "login"
  details := []
  ipAddress := []
  idTime := time
  bytes := []
  timestamp := time

/-- Three calls of two users, of which the log keeps the last two. -/
theorem auditLog_agrees_two :
    (run AuditLog.log (AuditLog.create 2 [])
      [loginCall (ascii "Alice") 1, loginCall (ascii "Bob") 2,
        loginCall (ascii "Alice") 3]).verifyIntegrity = true :=
  (auditLog_agrees (Nat.zero_lt_succ 1) [] _ (by decide +kernel)).2.2

end Blackstone.Bank
