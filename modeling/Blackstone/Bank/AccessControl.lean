import Blackstone.Bank.Sha1
import Blackstone.Library.GroupIndex
import Blackstone.Library.Runs
import Mathlib.Data.Finset.Basic

/-!
# The access controller

`access_control.cpp`. `userRoles` gives each user one role, and `roleMembers` lists the users of
each role. `assignRole` enters the user under the new role but leaves them listed under the old
one, so the two agree along a run exactly when no user is assigned a second role
(`roleIndex_iff`).
-/

namespace Blackstone.Bank

open GroupIndex OrderedMap Runs

/-- `Permission`. -/
inductive Permission where
  | read
  | write
  | delete
  | admin
  | audit
  | transfer
  | createAccount
  | freezeAccount
  | viewLogs
  | manageUsers
  | manageContracts
  deriving DecidableEq

/-- `Role`. -/
structure Role where
  roleName : Str
  permissions : Finset Permission

/-- The constructor of a role. -/
def Role.create (name : Str) : Role where
  roleName := name
  permissions := ∅

/-- `Role::addPermission`. -/
def Role.addPermission (role : Role) (perm : Permission) : Role :=
  { role with permissions := insert perm role.permissions }

/-- `Role::hasPermission`. -/
def Role.hasPermission (role : Role) (perm : Permission) : Bool := perm ∈ role.permissions

/-- `AccessController`. -/
structure AccessController where
  userRoles : Std.TreeMap Str Str
  roles : Std.TreeMap Str Role
  roleMembers : Index Str Str

namespace AccessController

/-- `AccessController::defineRole`. -/
def defineRole (s : AccessController) (roleName : Str) (permissions : List Permission) :
    AccessController :=
  let role := permissions.foldl Role.addPermission (Role.create roleName)
  { s with roles := s.roles.insert roleName role }

/-- The constructor. -/
def create : AccessController :=
  let s : AccessController := ⟨∅, ∅, ∅⟩
  let s := s.defineRole (ascii "admin")
    [.read, .write, .delete, .admin, .audit, .manageUsers, .manageContracts]
  let s := s.defineRole (ascii "user") [.read, .transfer]
  let s := s.defineRole (ascii "auditor") [.read, .audit, .viewLogs]
  s.defineRole (ascii "operator") [.read, .write, .freezeAccount, .viewLogs]

/-- `AccessController::assignRole`. -/
def assignRole (s : AccessController) (userId roleName : Str) : AccessController :=
  match s.roles[roleName]? with
  | none => s
  | some _ =>
    { s with
      userRoles := s.userRoles.insert userId roleName
      roleMembers := addMember s.roleMembers roleName userId }

/-- `AccessController::revokeRole`. -/
def revokeRole (s : AccessController) (userId roleName : Str) : AccessController :=
  match s.userRoles[userId]? with
  | none => s
  | some role =>
    if role = roleName then
      { s with
        userRoles := s.userRoles.erase userId
        roleMembers := removeMember s.roleMembers roleName userId }
    else s

/-- `AccessController::hasPermission`. -/
def hasPermission (s : AccessController) (userId : Str) (perm : Permission) : Bool :=
  match s.userRoles[userId]? with
  | none => false
  | some roleName =>
    match s.roles[roleName]? with
    | none => false
    | some role => role.hasPermission perm

/-- `AccessController::getUserRoles`. -/
def getUserRoles (s : AccessController) (userId : Str) : List Str :=
  match s.userRoles[userId]? with
  | some role => [role]
  | none => []

/-- `AccessController::getUsersWithRole`. -/
def getUsersWithRole (s : AccessController) (roleName : Str) : List Str :=
  match s.roleMembers[roleName]? with
  | some members => members.toList
  | none => []

/-- `AccessController::removeUser`. -/
def removeUser (s : AccessController) (userId : Str) : AccessController :=
  match s.userRoles[userId]? with
  | none => s
  | some role =>
    { s with
      roleMembers := removeMember s.roleMembers role userId
      userRoles := s.userRoles.erase userId }

/-! ## Runs -/

/-- A change of the roles. -/
inductive Change where
  | defineRole (roleName : Str) (permissions : List Permission)
  | assignRole (userId roleName : Str)
  | revokeRole (userId roleName : Str)
  | removeUser (userId : Str)

/-- The controller after a change. -/
def step (s : AccessController) : Change → AccessController
  | .defineRole roleName permissions => s.defineRole roleName permissions
  | .assignRole userId roleName => s.assignRole userId roleName
  | .revokeRole userId roleName => s.revokeRole userId roleName
  | .removeUser userId => s.removeUser userId

/-- A role lists the users that have it, and they have its permissions. -/
structure RoleIndex (s : AccessController) : Prop where
  listed : ∀ user role, user ∈ s.getUsersWithRole role ↔ s.getUserRoles user = [role]
  granted : ∀ user roleName, user ∈ s.getUsersWithRole roleName → ∀ role : Role,
    s.roles[roleName]? = some role → ∀ perm, s.hasPermission user perm = role.hasPermission perm

/-- No user is assigned a second role. -/
def KeepsRole (s : AccessController) : Change → Prop
  | .assignRole userId roleName =>
    roleName ∈ s.roles → ∀ old, s.userRoles[userId]? = some old → old = roleName
  | _ => True

theorem mem_getUsersWithRole_iff {s : AccessController} {user role : Str} :
    user ∈ s.getUsersWithRole role ↔ Listed s.roleMembers role user := by
  rw [getUsersWithRole, Listed]
  cases s.roleMembers[role]? with
  | none => exact iff_of_false List.not_mem_nil Std.TreeSet.not_mem_emptyc
  | some members => exact Std.TreeSet.mem_toList

theorem getUserRoles_eq_iff {s : AccessController} {user role : Str} :
    s.getUserRoles user = [role] ↔ s.userRoles[user]? = some role := by
  rw [getUserRoles]
  cases s.userRoles[user]? with
  | none => exact iff_of_false (fun h => nomatch h) (fun h => nomatch h)
  | some old => rw [List.singleton_inj, Option.some_inj]

/-- The law of the two tables. -/
theorem roleIndex_iff_indexed {s : AccessController} :
    s.RoleIndex ↔ Indexed s.userRoles s.roleMembers := by
  constructor
  · intro h user role
    rw [← mem_getUsersWithRole_iff, ← getUserRoles_eq_iff, h.listed]
  · intro h
    have hlisted : ∀ user role, user ∈ s.getUsersWithRole role ↔ s.userRoles[user]? = some role :=
      fun user role => by rw [mem_getUsersWithRole_iff, h]
    refine ⟨fun user role => ?_, fun user roleName hmem role hrole perm => ?_⟩
    · rw [hlisted, getUserRoles_eq_iff]
    · simp only [hasPermission, (hlisted user roleName).mp hmem, hrole]

/-- A change keeps the tables right exactly when it gives no user a second role. -/
theorem indexed_step_iff {s : AccessController} (h : Indexed s.userRoles s.roleMembers)
    (change : Change) :
    Indexed (s.step change).userRoles (s.step change).roleMembers ↔ KeepsRole s change := by
  cases change with
  | defineRole roleName permissions => exact iff_of_true h trivial
  | assignRole userId roleName =>
    rw [step, assignRole, KeepsRole, Std.TreeMap.mem_iff_isSome_getElem?]
    cases s.roles[roleName]? with
    | none => exact iff_of_true h (fun hdefined => nomatch hdefined)
    | some role =>
      rw [forall_prop_of_true (by rfl)]
      exact indexed_insert_iff h userId roleName
  | revokeRole userId roleName =>
    refine iff_of_true ?_ trivial
    rw [step, revokeRole]
    cases hrole : s.userRoles[userId]? with
    | none => exact h
    | some role =>
      by_cases heq : role = roleName
      · simp only [if_pos heq]
        exact h.erase (by rw [hrole, heq])
      · simp only [if_neg heq]
        exact h
  | removeUser userId =>
    refine iff_of_true ?_ trivial
    rw [step, removeUser]
    cases hrole : s.userRoles[userId]? with
    | none => exact h
    | some role => exact h.erase hrole

/-- Every state of a run lists the users of each role exactly when no user is assigned a second
role. -/
theorem roleIndex_iff (changes : List Change) :
    (∀ n, (run step create (changes.take n)).RoleIndex) ↔ Along step KeepsRole create changes := by
  have hstart : create.RoleIndex := roleIndex_iff_indexed.mpr indexed_empty
  rw [forall_run_take_iff, and_iff_right hstart]
  apply along_congr_of_invariant RoleIndex
  · intro s change h
    rw [roleIndex_iff_indexed]
    exact indexed_step_iff (roleIndex_iff_indexed.mp h) change
  · exact fun s change _ h => h
  · exact hstart

/-- A user who becomes an administrator is still listed as a user, without the permissions of
one. -/
theorem listed_former_role :
    let s := run step create
      [.assignRole (ascii "a") (ascii "user"), .assignRole (ascii "a") (ascii "admin")]
    ascii "a" ∈ s.getUsersWithRole (ascii "user") ∧
      s.getUserRoles (ascii "a") = [ascii "admin"] ∧
      s.hasPermission (ascii "a") .transfer = false ∧ ¬ s.RoleIndex := by
  intro s
  have hlisted : ascii "a" ∈ s.getUsersWithRole (ascii "user") := by decide
  have hroles : s.getUserRoles (ascii "a") = [ascii "admin"] := by decide
  refine ⟨hlisted, hroles, by decide, fun h => ?_⟩
  have hsame := (h.listed (ascii "a") (ascii "user")).mp hlisted
  rw [hroles] at hsame
  exact absurd hsame (by decide)

end AccessController

end Blackstone.Bank
