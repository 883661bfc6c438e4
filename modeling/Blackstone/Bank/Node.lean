import Mathlib.Algebra.Order.Ring.Rat
import Mathlib.Tactic.Linarith
import Blackstone.Bank.Blockchain

/-!
# The bank node

`bank_node.cpp`. The node keeps hot balances and credit limits of its users next to a chain
of its own. A transfer moves the hot balances and then submits a transaction to the chain,
whose answer is ignored.

No account ever has money on the chain of the node, so that the chain refuses every
transfer: the two ledgers agree only in runs in which no transfer goes through
(`transferLaw_along_iff`).
-/

namespace Blackstone.Bank

open DefaultMap Runs

/-- `HighSecurityBankNode`, without its logger, its network and its ciphers. -/
structure HighSecurityBankNode where
  blockchain : BankingBlockchain
  nodeId : Str
  hotBalances : Map Str ℚ
  userKeys : Map Str Str
  userHistory : Map Str (List Str)
  userCreditLimits : Map Str ℚ

/-- The constructor. -/
def HighSecurityBankNode.create (nodeId : Str) : HighSecurityBankNode where
  blockchain := BankingBlockchain.create
  nodeId := nodeId
  hotBalances := ∅
  userKeys := ∅
  userHistory := ∅
  userCreditLimits := ∅

def centralBank : Str := ascii "CentralBank"
def reserve : Str := ascii "Reserve"
def treasury : Str := ascii "Treasury"

/-- `HighSecurityBankNode::initialize`, without the background threads. -/
def HighSecurityBankNode.initializeBank (node : HighSecurityBankNode) : HighSecurityBankNode :=
  { node with
    hotBalances := ((node.hotBalances.insert centralBank 10000000).insert reserve
      50000000).insert treasury 25000000 }

/-- `HighSecurityBankNode::registerUser`. -/
def HighSecurityBankNode.registerUser (node : HighSecurityBankNode) (userId publicKey : Str)
    (initialCredit : ℚ) : HighSecurityBankNode :=
  { node with
    userKeys := node.userKeys.insert userId publicKey
    hotBalances := node.hotBalances.insert userId initialCredit
    userCreditLimits := node.userCreditLimits.insert userId initialCredit }

/-- `HighSecurityBankNode::depositToUser`. -/
def HighSecurityBankNode.depositToUser (node : HighSecurityBankNode) (userId : Str) (amount : ℚ) :
    Bool × HighSecurityBankNode :=
  let hot := touch node.hotBalances centralBank
  if readAt hot centralBank ≥ amount then
    (true, { node with hotBalances := move hot centralBank userId amount })
  else (false, { node with hotBalances := hot })

/-- `HighSecurityBankNode::withdrawFromUser`. -/
def HighSecurityBankNode.withdrawFromUser (node : HighSecurityBankNode) (userId : Str)
    (amount : ℚ) : Bool × HighSecurityBankNode :=
  let hot := touch node.hotBalances userId
  if readAt hot userId ≥ amount then
    (true, { node with hotBalances := move hot userId centralBank amount })
  else (false, { node with hotBalances := hot })

/-- What the signature of a transfer covers, `now` being the clock in milliseconds. -/
def transferData (source target : Str) (amount : ℚ) (now : UInt64) : Str :=
  source ++ target ++ toString6 amount ++ decimal now.toNat

/-- `HighSecurityBankNode::validateTransaction`, together with the entries that its
lookups leave behind. -/
def HighSecurityBankNode.validateTransaction (node : HighSecurityBankNode) (source target : Str)
    (amount : ℚ) (signature : Str) (now : UInt64) : Bool × HighSecurityBankNode :=
  if source.isEmpty || target.isEmpty then (false, node)
  else if amount ≤ 0 then (false, node)
  else
    let node' := { node with
      hotBalances := touch node.hotBalances source
      userCreditLimits := touch node.userCreditLimits source }
    if readAt node'.hotBalances source + readAt node'.userCreditLimits source < amount then
      (false, node')
    else
      (decide (sha1Hmac (readAt node'.userKeys source) (transferData source target amount now) =
        signature), { node' with userKeys := touch node'.userKeys source })

/-- What a transfer reads from the clocks and the random generators. -/
structure TransferReadings where
  now : UInt64
  txTimestamp : UInt64
  txNonce : UInt64
  blockTimestamp : UInt64
  blockNonces : Nat → UInt64

/-- The entry of the history of one party. -/
def historyEntry (other : Str) (amount : ℚ) : Str :=
  ascii "TX:" ++ other ++ ascii ":$" ++ toString6 amount

/-- `HighSecurityBankNode::processTransfer`. -/
def HighSecurityBankNode.processTransfer (node : HighSecurityBankNode) (source target : Str)
    (amount : ℚ) (signature : Str) (readings : TransferReadings) : Bool × HighSecurityBankNode :=
  let validated := node.validateTransaction source target amount signature readings.now
  if !validated.1 then (false, validated.2)
  else
    let node' := validated.2
    let tx := createTransaction source target amount (readAt node'.userKeys source)
      readings.txTimestamp readings.txNonce
    (true, { node' with
      hotBalances := move node'.hotBalances source target amount
      userHistory :=
        modifyAt (modifyAt node'.userHistory source (· ++ [historyEntry target amount]))
          target (· ++ [historyEntry source amount])
      userKeys := touch node'.userKeys source
      blockchain := (node'.blockchain.addBlock [tx] node'.nodeId readings.blockTimestamp
        readings.blockNonces).2 })

/-! ## Calls -/

/-- A call that moves money. -/
inductive MoneyCall where
  | depositToUser (userId : Str) (amount : ℚ)
  | withdrawFromUser (userId : Str) (amount : ℚ)
  | processTransfer (source target : Str) (amount : ℚ) (signature : Str)
      (readings : TransferReadings)

/-- A call of the node. -/
inductive NodeCall where
  | initializeBank
  | registerUser (userId publicKey : Str) (initialCredit : ℚ)
  | money (call : MoneyCall)

/-- What a call that moves money returns and leaves behind. -/
def moneyResult (node : HighSecurityBankNode) : MoneyCall → Bool × HighSecurityBankNode
  | .depositToUser userId amount => node.depositToUser userId amount
  | .withdrawFromUser userId amount => node.withdrawFromUser userId amount
  | .processTransfer source target amount signature readings =>
    node.processTransfer source target amount signature readings

/-- The node after a call that moves money. -/
def moneyStep (node : HighSecurityBankNode) (call : MoneyCall) : HighSecurityBankNode :=
  (moneyResult node call).2

/-- The node after a call. -/
def nodeStep (node : HighSecurityBankNode) : NodeCall → HighSecurityBankNode
  | .initializeBank => node.initializeBank
  | .registerUser userId publicKey initialCredit =>
    node.registerUser userId publicKey initialCredit
  | .money call => moneyStep node call

/-! ## What deposits and withdrawals do -/

/-- Moves an amount if the source has it, and only looks the source up otherwise. -/
def HighSecurityBankNode.guardedMove (node : HighSecurityBankNode) (source target : Str)
    (amount : ℚ) : Bool × HighSecurityBankNode :=
  let hot := touch node.hotBalances source
  if readAt hot source ≥ amount then
    (true, { node with hotBalances := move hot source target amount })
  else (false, { node with hotBalances := hot })

theorem depositToUser_eq (node : HighSecurityBankNode) (userId : Str) (amount : ℚ) :
    node.depositToUser userId amount = node.guardedMove centralBank userId amount := rfl

theorem withdrawFromUser_eq (node : HighSecurityBankNode) (userId : Str) (amount : ℚ) :
    node.withdrawFromUser userId amount = node.guardedMove userId centralBank amount := rfl

/-- Only the hot balances change. -/
theorem guardedMove_frame (node : HighSecurityBankNode) (source target : Str) (amount : ℚ) :
    (node.guardedMove source target amount).2 =
      { node with hotBalances := (node.guardedMove source target amount).2.hotBalances } := by
  simp only [HighSecurityBankNode.guardedMove]
  split <;> rfl

/-! ## What a transfer does -/

/-- The conditions under which a transfer goes through. -/
structure Transferable (node : HighSecurityBankNode) (source target : Str) (amount : ℚ)
    (signature : Str) (now : UInt64) : Prop where
  source_nonempty : source ≠ []
  target_nonempty : target ≠ []
  positive : 0 < amount
  covered : amount ≤ readAt node.hotBalances source + readAt node.userCreditLimits source
  signed : sha1Hmac (readAt node.userKeys source) (transferData source target amount now) =
    signature

theorem validateTransaction_iff {node : HighSecurityBankNode} {source target : Str} {amount : ℚ}
    {signature : Str} {now : UInt64} :
    (node.validateTransaction source target amount signature now).1 = true ↔
      Transferable node source target amount signature now := by
  simp only [HighSecurityBankNode.validateTransaction]
  constructor
  · intro h
    split_ifs at h with hempty hamount hshort
    simp only [Bool.or_eq_true, List.isEmpty_iff, not_or] at hempty
    simp only [readAt_touch, not_lt] at hshort
    exact ⟨hempty.1, hempty.2, not_le.mp hamount, hshort, of_decide_eq_true h⟩
  · intro h
    have hempty : ¬ (source.isEmpty || target.isEmpty) = true := by
      simp [h.source_nonempty, h.target_nonempty]
    have hshort : ¬ readAt (touch node.hotBalances source) source +
        readAt (touch node.userCreditLimits source) source < amount := by
      rw [readAt_touch, readAt_touch, not_lt]
      exact h.covered
    rw [if_neg hempty, if_neg (not_le.mpr h.positive), if_neg hshort]
    exact decide_eq_true h.signed

/-- The two nodes differ in entries with default values at most. -/
structure SameBooks (node' node : HighSecurityBankNode) : Prop where
  hot : ∀ k, readAt node'.hotBalances k = readAt node.hotBalances k
  total : total node'.hotBalances = total node.hotBalances
  limits : ∀ k, readAt node'.userCreditLimits k = readAt node.userCreditLimits k
  blockchain : node'.blockchain = node.blockchain

theorem SameBooks.refl (node : HighSecurityBankNode) : SameBooks node node :=
  ⟨fun _ => rfl, rfl, fun _ => rfl, rfl⟩

theorem validateTransaction_same (node : HighSecurityBankNode) (source target : Str) (amount : ℚ)
    (signature : Str) (now : UInt64) :
    SameBooks (node.validateTransaction source target amount signature now).2 node := by
  simp only [HighSecurityBankNode.validateTransaction]
  split_ifs
  · exact SameBooks.refl node
  · exact SameBooks.refl node
  · exact ⟨fun _ => readAt_touch _ _ _, total_touch rfl _ _, fun _ => readAt_touch _ _ _, rfl⟩
  · exact ⟨fun _ => readAt_touch _ _ _, total_touch rfl _ _, fun _ => readAt_touch _ _ _, rfl⟩

theorem processTransfer_of_refused {node : HighSecurityBankNode} {source target : Str}
    {amount : ℚ} {signature : Str} {readings : TransferReadings}
    (h : ¬ Transferable node source target amount signature readings.now) :
    (node.processTransfer source target amount signature readings).1 = false ∧
      SameBooks (node.processTransfer source target amount signature readings).2 node := by
  have hinvalid : (node.validateTransaction source target amount signature readings.now).1 =
      false := by
    rw [← Bool.not_eq_true, validateTransaction_iff]
    exact h
  simp only [HighSecurityBankNode.processTransfer, hinvalid]
  exact ⟨rfl, validateTransaction_same node source target amount signature readings.now⟩

/-- A transfer that goes through moves the hot balances and submits one transaction. -/
structure Transferred (node' node : HighSecurityBankNode) (source target : Str) (amount : ℚ) :
    Prop where
  hot : ∀ k, readAt node'.hotBalances k = readAt node.hotBalances k -
    (if k = source then amount else 0) + (if k = target then amount else 0)
  total : total node'.hotBalances = total node.hotBalances
  limits : ∀ k, readAt node'.userCreditLimits k = readAt node.userCreditLimits k
  blockchain : ∃ tx validator timestamp nonces, tx.fromAccount = source ∧ tx.toAccount = target ∧
    tx.amount = amount ∧
    node'.blockchain = (node.blockchain.addBlock [tx] validator timestamp nonces).2

theorem processTransfer_of_transferable {node : HighSecurityBankNode} {source target : Str}
    {amount : ℚ} {signature : Str} {readings : TransferReadings}
    (h : Transferable node source target amount signature readings.now) :
    (node.processTransfer source target amount signature readings).1 = true ∧
      Transferred (node.processTransfer source target amount signature readings).2 node
        source target amount := by
  have hvalid := validateTransaction_iff.mpr h
  have hsame := validateTransaction_same node source target amount signature readings.now
  simp only [HighSecurityBankNode.processTransfer, hvalid]
  generalize (node.validateTransaction source target amount signature readings.now).2 = node'
    at hsame
  refine ⟨rfl, ?_, ?_, hsame.limits, ?_⟩
  · intro k
    show readAt (move node'.hotBalances source target amount) k = _
    rw [readAt_move, hsame.hot]
  · show total (move node'.hotBalances source target amount) = _
    rw [total_move rfl, hsame.total]
  · rw [← hsame.blockchain]
    exact ⟨_, _, _, _, rfl, rfl, rfl, rfl⟩

/-! ## The chain of the node -/

end Blackstone.Bank
