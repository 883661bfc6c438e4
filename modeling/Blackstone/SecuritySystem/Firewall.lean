import Blackstone.Library.Runs
import Blackstone.Library.SlotTable

/-!
# The firewall

`security/firewall.c`. The rules are an array of 256, each for an address and a port. What they
should mean is a map from these pairs to actions, `ALLOW` where there is none.

`firewall_check` looks for the rule with the highest priority above -999, and a rule that is not
above it is not seen. A rule that comes when the array is full is dropped. Nothing else goes wrong:
the firewall obeys its rules exactly along the calls in which neither happens to an action other
than `ALLOW` (`obeys_iff`).
-/

namespace Blackstone.SecuritySystem

open Runs SlotTable

/-- What an `ip[16]` field holds: a text that fits with the NUL after it. -/
@[ext] structure IpText where
  chars : List UInt8
  noNul : 0 ∉ chars
  fits : chars.length < 16
deriving DecidableEq

/-- `firewall_action_t`. -/
inductive FirewallAction
  | allow
  | deny
  | log
deriving DecidableEq

/-- `firewall_rule_t`. -/
structure FirewallRule where
  ip : IpText
  port : ℤ
  action : FirewallAction
  priority : ℤ

/-- An address and a port. -/
abbrev Endpoint := IpText × ℤ

def FirewallRule.endpoint (r : FirewallRule) : Endpoint := (r.ip, r.port)

/-- `MAX_FW_RULES`. -/
def maxFwRules : ℕ := 256

/-- The rules of `g_fw_rules` that are in use, `g_fw_rule_count` of them. -/
structure RuleTable where
  rules : List FirewallRule
  fits : rules.length ≤ maxFwRules

def RuleTable.endpoints (t : RuleTable) : List Endpoint := t.rules.map FirewallRule.endpoint

/-- `firewall_init`. -/
def firewallInit : RuleTable := ⟨[], Nat.zero_le _⟩

/-- `firewall_add_rule`. It returns 1 when a rule was changed. -/
def firewallAddRule (t : RuleTable) (ip : IpText) (port : ℤ) (action : FirewallAction)
    (priority : ℤ) : RuleTable × ℤ :=
  if (ip, port) ∈ t.endpoints then
    (⟨replaceKey FirewallRule.endpoint (ip, port)
        (fun r => { r with action := action, priority := priority }) t.rules,
      length_replaceKey.trans_le t.fits⟩, 1)
  else if h : t.rules.length < maxFwRules then
    (⟨t.rules ++ [⟨ip, port, action, priority⟩], (List.length_append ..).trans_le h⟩, 0)
  else (t, 0)

/-- `firewall_remove_rule`. -/
def firewallRemoveRule (t : RuleTable) (ip : IpText) (port : ℤ) : RuleTable × ℤ :=
  if (ip, port) ∈ t.endpoints then
    (⟨eraseKey FirewallRule.endpoint (ip, port) t.rules, length_eraseKey_le.trans t.fits⟩, 1)
  else (t, 0)

/-- One turn of the loop of `firewall_check`: `highest_priority` and `result`. -/
def scanRule (e : Endpoint) (found : ℤ × FirewallAction) (r : FirewallRule) :
    ℤ × FirewallAction :=
  if r.endpoint = e ∧ found.1 < r.priority then (r.priority, r.action) else found

/-- `firewall_check`. -/
def firewallCheck (t : RuleTable) (ip : IpText) (port : ℤ) : FirewallAction :=
  (t.rules.foldl (scanRule (ip, port)) (-999, .allow)).2

/-! ## What the calls should do -/

inductive FirewallCall
  | add (ip : IpText) (port : ℤ) (action : FirewallAction) (priority : ℤ)
  | remove (ip : IpText) (port : ℤ)

/-- The table after a call. -/
def FirewallCall.table (t : RuleTable) : FirewallCall → RuleTable
  | .add ip port action priority => (firewallAddRule t ip port action priority).1
  | .remove ip port => (firewallRemoveRule t ip port).1

/-- The actions that were asked for and not taken back, after a call. -/
def FirewallCall.actions (m : Endpoint → Option FirewallAction) :
    FirewallCall → Endpoint → Option FirewallAction
  | .add ip port action _ => Function.update m (ip, port) (some action)
  | .remove ip port => Function.update m (ip, port) none

namespace Firewall

/-- The table after some calls, and the actions that were asked for. -/
structure History where
  table : RuleTable
  actions : Endpoint → Option FirewallAction

/-- The state after `firewall_init`. -/
def History.start : History := ⟨firewallInit, fun _ => none⟩

def History.step (h : History) (call : FirewallCall) : History :=
  ⟨call.table h.table, call.actions h.actions⟩

/-- The firewall obeys its rules. -/
def Obeys (h : History) : Prop :=
  ∀ ip port, firewallCheck h.table ip port = (h.actions (ip, port)).getD .allow

/-- An action other than `ALLOW` comes with a priority that is seen, and it has a place. -/
def Kept (h : History) : FirewallCall → Prop
  | .add ip port action priority => action = .allow ∨ (-999 < priority ∧
      ((ip, port) ∈ h.table.endpoints ∨ h.table.rules.length < maxFwRules))
  | .remove _ _ => True

end Firewall

/-! ## The scan -/

/-- What a rule does when it is the only one for its pair. -/
def FirewallRule.effect (r : FirewallRule) : FirewallAction :=
  if -999 < r.priority then r.action else .allow

section Scan

variable {rules : List FirewallRule} {e : Endpoint} {found : ℤ × FirewallAction}

theorem scan_of_notMem (he : e ∉ rules.map FirewallRule.endpoint) :
    rules.foldl (scanRule e) found = found := by
  induction rules with
  | nil => rfl
  | cons r rules ih =>
    rw [List.map_cons, List.mem_cons, not_or] at he
    have hr : ¬(r.endpoint = e ∧ found.1 < r.priority) := fun hr => he.1 hr.1.symm
    rw [List.foldl_cons, scanRule, if_neg hr]
    exact ih he.2

/-- With one rule for the pair, the order does not matter. -/
theorem scan_of_mem (hnodup : (rules.map FirewallRule.endpoint).Nodup) {r : FirewallRule}
    (hr : r ∈ rules) :
    (rules.foldl (scanRule r.endpoint) (-999, .allow)).2 = r.effect := by
  induction rules with
  | nil => exact absurd hr List.not_mem_nil
  | cons r' rules ih =>
    rw [List.map_cons, List.nodup_cons] at hnodup
    rw [List.foldl_cons, scanRule]
    rcases List.mem_cons.mp hr with rfl | hr
    · rw [scan_of_notMem hnodup.1, FirewallRule.effect]
      by_cases hpriority : -999 < r.priority
      · rw [if_pos hpriority, if_pos ⟨rfl, hpriority⟩]
      · rw [if_neg hpriority, if_neg (fun h => hpriority h.2)]
    · have hne : ¬(r'.endpoint = r.endpoint ∧ -999 < r'.priority) := by
        rintro ⟨heq, -⟩
        exact hnodup.1 (heq ▸ List.mem_map_of_mem hr)
      rw [if_neg hne]
      exact ih hnodup.2 hr

end Scan

/-! ## The rules as a map -/

section Table

variable {t : RuleTable} {m : Endpoint → Option FirewallAction}

/-- The rules hold a map. -/
def RuleTable.Holds (t : RuleTable) (m : Endpoint → Option FirewallAction) : Prop :=
  Represents FirewallRule.endpoint (fun r => some r.effect) t.rules m

theorem RuleTable.Holds.check (ht : t.Holds m) (ip : IpText) (port : ℤ) :
    firewallCheck t ip port = (m (ip, port)).getD .allow := by
  rw [firewallCheck]
  by_cases he : (ip, port) ∈ t.endpoints
  · obtain ⟨r, hr, hendpoint⟩ := List.mem_map.mp he
    rw [← hendpoint, scan_of_mem ht.nodup hr, ht.stored r hr, Option.getD_some]
  · rw [scan_of_notMem he, ht.absent _ he, Option.getD_none]

/-- What comes of a rule that is added. -/
def RuleTable.addEffect (t : RuleTable) (ip : IpText) (port : ℤ) (action : FirewallAction)
    (priority : ℤ) : Option FirewallAction :=
  if (ip, port) ∈ t.endpoints ∨ t.rules.length < maxFwRules then
    some (FirewallRule.mk ip port action priority).effect
  else none

theorem RuleTable.Holds.add (ht : t.Holds m) (ip : IpText) (port : ℤ) (action : FirewallAction)
    (priority : ℤ) :
    (firewallAddRule t ip port action priority).1.Holds
      (Function.update m (ip, port) (t.addEffect ip port action priority)) := by
  rw [firewallAddRule, RuleTable.addEffect]
  by_cases hmem : (ip, port) ∈ t.endpoints
  · rw [if_pos hmem, if_pos (Or.inl hmem)]
    refine Represents.replaceKey ht ?_ ?_ hmem
    · exact fun _ => rfl
    · exact fun _ => rfl
  · rw [if_neg hmem]
    by_cases hfree : t.rules.length < maxFwRules
    · rw [dif_pos hfree, if_pos (Or.inr hfree)]
      exact Represents.push ht ⟨ip, port, action, priority⟩ hmem
    · rw [dif_neg hfree, if_neg (not_or.mpr ⟨hmem, hfree⟩)]
      exact Represents.erase_absent ht hmem

theorem RuleTable.Holds.remove (ht : t.Holds m) (ip : IpText) (port : ℤ) :
    (firewallRemoveRule t ip port).1.Holds (Function.update m (ip, port) none) := by
  rw [firewallRemoveRule]
  split_ifs with hmem
  · exact Represents.eraseKey ht (ip, port)
  · exact Represents.erase_absent ht hmem

end Table

/-! ## The law along a run -/

namespace Firewall

variable {h : History}

/-- The table holds a map that gives the same answers as the actions that were asked for. -/
def History.Inv (h : History) : Prop := ∃ m, h.table.Holds m ∧
  ∀ e, (m e).getD .allow = (h.actions e).getD .allow

theorem History.inv_start : start.Inv := ⟨fun _ => none, represents_nil, fun _ => rfl⟩

theorem History.Inv.obeys (hinv : h.Inv) : Obeys h := by
  obtain ⟨m, hholds, hsame⟩ := hinv
  intro ip port
  rw [hholds.check, hsame]

/-- A call that changes what is asked for one pair, to what the table now does. -/
theorem inv_update {t : RuleTable} {m actions : Endpoint → Option FirewallAction} {e : Endpoint}
    {v wanted : Option FirewallAction} (hholds : t.Holds (Function.update m e v))
    (hsame : ∀ e, (m e).getD .allow = (actions e).getD .allow)
    (hwanted : v.getD .allow = wanted.getD .allow) :
    History.Inv ⟨t, Function.update actions e wanted⟩ := by
  refine ⟨_, hholds, ?_⟩
  intro e'
  change _ = (Function.update actions e wanted e').getD .allow
  by_cases he : e' = e
  · rw [he, Function.update_self, Function.update_self, hwanted]
  · rw [Function.update_of_ne he, Function.update_of_ne he, hsame]

/-- A rule is obeyed from now on, or it was added in vain. -/
theorem addEffect_eq_iff {ip : IpText} {port : ℤ} {action : FirewallAction} {priority : ℤ} :
    (h.table.addEffect ip port action priority).getD .allow = action ↔
      Kept h (.add ip port action priority) := by
  rw [RuleTable.addEffect, Kept]
  by_cases hroom : (ip, port) ∈ h.table.endpoints ∨ h.table.rules.length < maxFwRules
  · rw [if_pos hroom, and_iff_left hroom, Option.getD_some, FirewallRule.effect]
    by_cases hpriority : -999 < priority
    · rw [if_pos hpriority]
      exact iff_of_true rfl (Or.inr hpriority)
    · rw [if_neg hpriority, or_iff_left hpriority]
      exact eq_comm
  · rw [if_neg hroom, and_iff_right_of_imp (fun h => absurd h hroom), or_iff_left hroom]
    exact eq_comm

/-- A call that keeps to the condition keeps the invariant. -/
theorem History.Inv.step (hinv : h.Inv) {call : FirewallCall} (hkept : Kept h call) :
    (h.step call).Inv := by
  obtain ⟨m, hholds, hsame⟩ := hinv
  cases call with
  | add ip port action priority =>
    exact inv_update (hholds.add ip port action priority) hsame (addEffect_eq_iff.mpr hkept)
  | remove ip port => exact inv_update (hholds.remove ip port) hsame rfl

/-- One that does not gives a wrong answer at once. -/
theorem History.Inv.obeys_step_iff (hinv : h.Inv) (call : FirewallCall) :
    Obeys (h.step call) ↔ Kept h call := by
  refine ⟨?_, fun hkept => (hinv.step hkept).obeys⟩
  intro hobeys
  cases call with
  | add ip port action priority =>
    obtain ⟨m, hholds, hsame⟩ := hinv
    have hanswer := hobeys ip port
    rw [History.step, FirewallCall.table, (hholds.add ip port action priority).check,
      Function.update_self] at hanswer
    rw [← addEffect_eq_iff, hanswer]
    change (Function.update h.actions (ip, port) (some action) (ip, port)).getD .allow = action
    rw [Function.update_self, Option.getD_some]
  | remove ip port => exact trivial

/-- The firewall obeys its rules in every state exactly when every action other than `ALLOW` comes
with a priority that is seen and finds a place. -/
theorem obeys_iff (calls : List FirewallCall) :
    (∀ n, Obeys (run History.step History.start (calls.take n))) ↔
      Along History.step Kept History.start calls := by
  have hstart := History.inv_start
  rw [forall_run_take_iff, and_iff_right hstart.obeys]
  apply along_congr_of_invariant History.Inv
  · intro h call hinv
    exact hinv.obeys_step_iff call
  · intro h call hinv hobeys
    exact hinv.step ((hinv.obeys_step_iff call).mp hobeys)
  · exact hstart

/-- 10.0.0.1. -/
def someIp : IpText := ⟨[49, 48, 46, 48, 46, 48, 46, 49], by decide, by decide⟩

/-- A rule with the lowest priority that is not seen. -/
theorem not_obeys_deny : ¬Obeys (run History.step History.start
    [.add someIp 80 .deny (-999)]) := by
  intro hobeys
  have hcheck := hobeys someIp 80
  revert hcheck
  decide

end Firewall

end Blackstone.SecuritySystem
