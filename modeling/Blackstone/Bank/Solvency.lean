import Blackstone.Bank.Node

/-!
# Solvency of the bank node

The node starts with the money of the treasury and registers the users of a `Roster`, whose
names are new and whose credits are at least zero. From there on every call that moves
money keeps the sum of all hot balances.

A transfer checks the sign of its amount, a deposit and a withdrawal compare it with one
balance only. `solventRun_iff` says which deposits and withdrawals of a negative amount
break the limits of the node: exactly those that take from a user more than balance and
credit, or from the central bank more than it has.
-/

namespace Blackstone.Bank

open DefaultMap Runs

/-! ## Users -/

/-- A call of `registerUser` with a credit of at least zero. -/
structure Registration where
  userId : Str
  publicKey : Str
  credit : ℚ
  credit_nonneg : 0 ≤ credit

/-- The users of a node: each is registered once, under a name of its own. -/
structure Roster where
  users : List Registration
  distinct : (users.map Registration.userId).Nodup
  fresh : ∀ user ∈ users, user.userId ∉ [centralBank, reserve, treasury]

/-- The node after the registrations. -/
def registerAll (node : HighSecurityBankNode) (users : List Registration) :
    HighSecurityBankNode :=
  users.foldl (fun node user => node.registerUser user.userId user.publicKey user.credit) node

/-- The node after `initialize` and the registrations. -/
def Roster.start (roster : Roster) (nodeId : Str) : HighSecurityBankNode :=
  registerAll (HighSecurityBankNode.create nodeId).initializeBank roster.users

theorem registerAll_of_notMem {users : List Registration} {k : Str}
    (hk : k ∉ users.map Registration.userId) (node : HighSecurityBankNode) :
    readAt (registerAll node users).hotBalances k = readAt node.hotBalances k ∧
      readAt (registerAll node users).userCreditLimits k = readAt node.userCreditLimits k := by
  induction users generalizing node with
  | nil => exact ⟨rfl, rfl⟩
  | cons user users ih =>
    rw [List.map_cons, List.mem_cons, not_or] at hk
    obtain ⟨hhot, hlimit⟩ := ih hk.2 (node.registerUser user.userId user.publicKey user.credit)
    refine ⟨hhot.trans ?_, hlimit.trans ?_⟩
    · exact readAt_insert_of_ne _ hk.1 _
    · exact readAt_insert_of_ne _ hk.1 _

/-- A registered user starts with the credit as balance and as limit. -/
theorem registerAll_of_mem {users : List Registration}
    (hdistinct : (users.map Registration.userId).Nodup) {user : Registration}
    (hmem : user ∈ users) (node : HighSecurityBankNode) :
    readAt (registerAll node users).hotBalances user.userId = user.credit ∧
      readAt (registerAll node users).userCreditLimits user.userId = user.credit := by
  induction users generalizing node with
  | nil => cases hmem
  | cons first users ih =>
    rw [List.map_cons, List.nodup_cons] at hdistinct
    rcases List.mem_cons.mp hmem with rfl | hmem
    · obtain ⟨hhot, hlimit⟩ := registerAll_of_notMem hdistinct.1
        (node.registerUser user.userId user.publicKey user.credit)
      refine ⟨hhot.trans ?_, hlimit.trans ?_⟩
      · exact readAt_insert_self _ _ _
      · exact readAt_insert_self _ _ _
    · exact ih hdistinct.2 hmem _

/-! ## The law and its condition -/

/-- No account is below its limit, and no money has appeared or vanished. -/
structure Solvent (start node : HighSecurityBankNode) (roster : Roster) : Prop where
  total : total node.hotBalances = total start.hotBalances
  central : 0 ≤ readAt node.hotBalances centralBank
  users : ∀ user ∈ roster.users, -user.credit ≤ readAt node.hotBalances user.userId

/-- A deposit of a negative amount leaves a registered user within the limit; a withdrawal
of a negative amount that is not refused leaves the central bank with at least zero. -/
def Covered (roster : Roster) (node : HighSecurityBankNode) : MoneyCall → Prop
  | .depositToUser userId amount =>
    amount < 0 → ∀ user ∈ roster.users, user.userId = userId →
      -user.credit ≤ readAt node.hotBalances userId + amount
  | .withdrawFromUser userId amount =>
    amount < 0 → userId ≠ centralBank → amount ≤ readAt node.hotBalances userId →
      0 ≤ readAt node.hotBalances centralBank + amount
  | .processTransfer _ _ _ _ _ => True

/-- The invariant: solvent, with the registered limits and no credit for the central bank. -/
structure Kept (start : HighSecurityBankNode) (roster : Roster) (node : HighSecurityBankNode) :
    Prop where
  solvent : Solvent start node roster
  central_limit : readAt node.userCreditLimits centralBank = 0
  limits : ∀ user ∈ roster.users, readAt node.userCreditLimits user.userId = user.credit

theorem Roster.ne_centralBank (roster : Roster) {user : Registration}
    (hmem : user ∈ roster.users) : user.userId ≠ centralBank := by
  intro heq
  apply roster.fresh user hmem
  rw [heq]
  exact List.mem_cons_self

theorem Roster.kept_start (roster : Roster) (nodeId : Str) :
    Kept (roster.start nodeId) roster (roster.start nodeId) := by
  have hcentral : centralBank ∉ roster.users.map Registration.userId := by
    intro hmem
    obtain ⟨user, huser, heq⟩ := List.mem_map.mp hmem
    exact roster.ne_centralBank huser heq
  obtain ⟨hhot, hlimit⟩ := registerAll_of_notMem hcentral
    (HighSecurityBankNode.create nodeId).initializeBank
  refine ⟨⟨rfl, ?_, ?_⟩, ?_, ?_⟩
  · have hmoney : readAt (HighSecurityBankNode.create nodeId).initializeBank.hotBalances
        centralBank = 10000000 := by
      show readAt (Finmap.insert _ _ (Finmap.insert _ _ (Finmap.insert _ _ _))) _ = _
      rw [readAt_insert_of_ne _ (by decide), readAt_insert_of_ne _ (by decide),
        readAt_insert_self]
    show 0 ≤ readAt (registerAll _ _).hotBalances centralBank
    rw [hhot, hmoney]
    norm_num
  · intro user hmem
    obtain ⟨hbalance, -⟩ := registerAll_of_mem roster.distinct hmem
      (HighSecurityBankNode.create nodeId).initializeBank
    have hcredit := user.credit_nonneg
    show -user.credit ≤ readAt (registerAll _ _).hotBalances _
    rw [hbalance]
    linarith
  · exact hlimit.trans (readAt_empty _)
  · intro user hmem
    exact (registerAll_of_mem roster.distinct hmem _).2

/-! ## One call -/

/-- What a call does to the hot balances: money moves from one account to another, or
nothing happens. -/
structure Moved (node' node : HighSecurityBankNode) (source target : Str) (amount : ℚ) : Prop where
  hot : ∀ k, readAt node'.hotBalances k = readAt node.hotBalances k -
    (if k = source then amount else 0) + (if k = target then amount else 0)
  total : total node'.hotBalances = total node.hotBalances

theorem guardedMove_of_le {node : HighSecurityBankNode} {source : Str} {amount : ℚ}
    (h : amount ≤ readAt node.hotBalances source) (target : Str) :
    Moved (node.guardedMove source target amount).2 node source target amount := by
  simp only [HighSecurityBankNode.guardedMove, readAt_touch, if_pos h]
  refine ⟨?_, ?_⟩
  · intro k
    rw [readAt_move, readAt_touch]
  · rw [total_move rfl, total_touch rfl]

theorem guardedMove_of_gt {node : HighSecurityBankNode} {source : Str} {amount : ℚ}
    (h : ¬ amount ≤ readAt node.hotBalances source) (target : Str) :
    SameBooks (node.guardedMove source target amount).2 node := by
  simp only [HighSecurityBankNode.guardedMove, readAt_touch, if_neg h]
  exact ⟨fun _ => readAt_touch _ _ _, total_touch rfl _ _, fun _ => rfl, rfl⟩

theorem Solvent.congr {start node node' : HighSecurityBankNode} {roster : Roster}
    (h : Solvent start node roster) (hsame : SameBooks node' node) :
    Solvent start node' roster where
  total := hsame.total.trans h.total
  central := by
    rw [hsame.hot]
    exact h.central
  users user hmem := by
    rw [hsame.hot]
    exact h.users user hmem

/-- A transfer checks the sign of its amount and the limit of its source, so that an account within
its limit stays within it. -/
theorem withinLimit_of_transferable {node : HighSecurityBankNode} {source target : Str}
    {amount : ℚ} {signature : Str} {readings : TransferReadings}
    (hok : Transferable node source target amount signature readings.now) (account : Str)
    (hwithin : -readAt node.userCreditLimits account ≤ readAt node.hotBalances account) :
    -readAt node.userCreditLimits account ≤
      readAt (node.processTransfer source target amount signature readings).2.hotBalances
        account := by
  obtain ⟨-, hhot, -, -, -⟩ := processTransfer_of_transferable hok
  have hpos := hok.positive
  have hcovered := hok.covered
  rw [hhot]
  split_ifs with hsource htarget
  · linarith
  · rw [← hsource] at hcovered
    linarith
  · linarith
  · linarith

section Call

variable {start node : HighSecurityBankNode} {roster : Roster} (h : Kept start roster node)

include h

theorem Kept.deposit_iff (userId : Str) (amount : ℚ) :
    Solvent start (node.depositToUser userId amount).2 roster ↔
      Covered roster node (.depositToUser userId amount) := by
  rw [depositToUser_eq]
  have hcentral := h.solvent.central
  by_cases hle : amount ≤ readAt node.hotBalances centralBank
  · obtain ⟨hhot, htotal⟩ := guardedMove_of_le hle userId
    constructor
    · intro hsolvent hneg user hmem heq
      subst heq
      have huser := hsolvent.users user hmem
      rw [hhot, if_neg (roster.ne_centralBank hmem), if_pos rfl, sub_zero] at huser
      exact huser
    · intro hcovered
      refine ⟨htotal.trans h.solvent.total, ?_, ?_⟩
      · rw [hhot, if_pos rfl]
        split
        · linarith
        · linarith
      · intro user hmem
        have huser := h.solvent.users user hmem
        rw [hhot, if_neg (roster.ne_centralBank hmem), sub_zero]
        split
        · rename_i heq
          by_cases hneg : amount < 0
          · rw [heq]
            exact hcovered hneg user hmem heq
          · linarith
        · linarith
  · have hpos : ¬ amount < 0 := by
      intro hneg
      exact hle (le_trans (le_of_lt hneg) hcentral)
    exact ⟨fun _ hneg => absurd hneg hpos,
      fun _ => h.solvent.congr (guardedMove_of_gt hle userId)⟩

theorem Kept.withdraw_iff (userId : Str) (amount : ℚ) :
    Solvent start (node.withdrawFromUser userId amount).2 roster ↔
      Covered roster node (.withdrawFromUser userId amount) := by
  rw [withdrawFromUser_eq]
  have hcentral := h.solvent.central
  by_cases hle : amount ≤ readAt node.hotBalances userId
  · obtain ⟨hhot, htotal⟩ := guardedMove_of_le hle centralBank
    constructor
    · intro hsolvent hneg hne _
      have hbank := hsolvent.central
      rw [hhot, if_neg hne.symm, if_pos rfl, sub_zero] at hbank
      exact hbank
    · intro hcovered
      refine ⟨htotal.trans h.solvent.total, ?_, ?_⟩
      · rw [hhot, if_pos rfl]
        split
        · linarith
        · rename_i hne
          by_cases hneg : amount < 0
          · rw [sub_zero]
            exact hcovered hneg (fun heq => hne heq.symm) hle
          · linarith
      · intro user hmem
        have huser := h.solvent.users user hmem
        have hcredit := user.credit_nonneg
        rw [hhot, if_neg (roster.ne_centralBank hmem), add_zero]
        split
        · rename_i heq
          rw [heq]
          linarith
        · linarith
  · exact ⟨fun _ _ _ hcovered => absurd hcovered hle,
      fun _ => h.solvent.congr (guardedMove_of_gt hle centralBank)⟩

theorem Kept.transfer (source target : Str) (amount : ℚ) (signature : Str)
    (readings : TransferReadings) :
    Solvent start (node.processTransfer source target amount signature readings).2 roster := by
  by_cases hok : Transferable node source target amount signature readings.now
  · obtain ⟨-, -, htotal, -, -⟩ := processTransfer_of_transferable hok
    refine ⟨htotal.trans h.solvent.total, ?_, ?_⟩
    · have hcentral := withinLimit_of_transferable hok centralBank
      rw [h.central_limit, neg_zero] at hcentral
      exact hcentral h.solvent.central
    · intro user hmem
      have huser := withinLimit_of_transferable hok user.userId
      rw [h.limits user hmem] at huser
      exact huser (h.solvent.users user hmem)
  · exact h.solvent.congr (processTransfer_of_refused hok).2

theorem Kept.solvent_step_iff (call : MoneyCall) :
    Solvent start (moneyStep node call) roster ↔ Covered roster node call := by
  cases call with
  | depositToUser userId amount => exact h.deposit_iff userId amount
  | withdrawFromUser userId amount => exact h.withdraw_iff userId amount
  | processTransfer source target amount signature readings =>
    exact ⟨fun _ => trivial, fun _ => h.transfer source target amount signature readings⟩

end Call

/-- Moving money leaves the limits alone. -/
theorem limits_moneyStep (node : HighSecurityBankNode) (call : MoneyCall) (k : Str) :
    readAt (moneyStep node call).userCreditLimits k = readAt node.userCreditLimits k := by
  cases call with
  | depositToUser userId amount =>
    show readAt (node.depositToUser userId amount).2.userCreditLimits k = _
    rw [depositToUser_eq, guardedMove_frame]
  | withdrawFromUser userId amount =>
    show readAt (node.withdrawFromUser userId amount).2.userCreditLimits k = _
    rw [withdrawFromUser_eq, guardedMove_frame]
  | processTransfer source target amount signature readings =>
    by_cases hok : Transferable node source target amount signature readings.now
    · exact (processTransfer_of_transferable hok).2.limits k
    · exact (processTransfer_of_refused hok).2.limits k

theorem Kept.moneyStep {start node : HighSecurityBankNode} {roster : Roster}
    (h : Kept start roster node) {call : MoneyCall}
    (hsolvent : Solvent start (moneyStep node call) roster) :
    Kept start roster (moneyStep node call) where
  solvent := hsolvent
  central_limit := (limits_moneyStep node call centralBank).trans h.central_limit
  limits user hmem := (limits_moneyStep node call user.userId).trans (h.limits user hmem)

/-! ## Runs -/

/-- The state before a run and all states in it are solvent. -/
def SolventRun (roster : Roster) (nodeId : Str) (calls : List MoneyCall) : Prop :=
  Solvent (roster.start nodeId) (roster.start nodeId) roster ∧
    Along moneyStep (fun node call => Solvent (roster.start nodeId) (moneyStep node call) roster)
      (roster.start nodeId) calls

/-- A run of deposits, withdrawals and transfers is solvent exactly when every call of the
run is covered. -/
theorem solventRun_iff (roster : Roster) (nodeId : Str) (calls : List MoneyCall) :
    SolventRun roster nodeId calls ↔
      Along moneyStep (Covered roster) (roster.start nodeId) calls := by
  have hkept := roster.kept_start nodeId
  have hcongr := along_congr_of_invariant (Kept (roster.start nodeId) roster)
    (fun _ call h => h.solvent_step_iff call) (fun _ _ h hsolvent => h.moneyStep hsolvent)
    calls hkept
  exact ⟨fun h => hcongr.mp h.2, fun h => ⟨hkept.solvent, hcongr.mpr h⟩⟩

/-- One user with a credit of 10. -/
def aliceRoster : Roster where
  users := [⟨ascii "Alice", ascii "key", 10, by norm_num⟩]
  distinct := List.nodup_singleton _
  fresh user hmem := by
    obtain rfl := List.mem_singleton.mp hmem
    decide

/-- A deposit of -100 takes the user to -90. -/
theorem negativeDeposit_not_solvent :
    ¬ SolventRun aliceRoster [] [.depositToUser (ascii "Alice") (-100)] := by
  intro hrun
  have hcovered := ((aliceRoster.kept_start []).solvent_step_iff _).mp hrun.2.1
  have hlimit := hcovered (by norm_num) _ List.mem_cons_self rfl
  have hbalance := (registerAll_of_mem aliceRoster.distinct List.mem_cons_self
    (HighSecurityBankNode.create []).initializeBank).1
  have hstart : readAt (aliceRoster.start []).hotBalances (ascii "Alice") = 10 := hbalance
  rw [hstart] at hlimit
  norm_num at hlimit

end Blackstone.Bank
