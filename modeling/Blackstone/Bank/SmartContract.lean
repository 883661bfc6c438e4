import Blackstone.Bank.Database
import Blackstone.Library.Answers
import Blackstone.Library.BoundedLog
import Blackstone.Library.OwnerLists

/-!
# Contracts and their engine

`smart_contract.cpp` without its mutex and without the text form of a contract. Executing a
function runs nothing; it notes an event, and a contract keeps its last 1000 events.

A `Deployment` is a contract as it was deployed together with every function that was executed
since. The engine answers every sequence of requests as the list of deployments does
(`engineAnswers_eq`): nothing but its status and its events ever changes in a deployed contract.
-/

namespace Blackstone.Bank

open Answers BoundedLog DefaultMap OwnerLists

/-! ## Contracts -/

/-- `SmartContract::ValueType`. -/
inductive ContractValue where
  | int (value : Int64)
  | double (value : ℚ)
  | string (value : Str)
  | bool (value : Bool)

/-- The bound on the events of a contract. -/
@[irreducible] def eventLimit : Nat := 1000

/-- `SmartContract`. -/
structure SmartContract where
  contractId : Str
  creator : Str
  code : Str
  state : Std.TreeMap Str ContractValue
  events : List Str
  isActive : Bool
  createdAt : UInt64
  bounded : events.length ≤ eventLimit

namespace SmartContract

/-- The constructor without arguments. -/
def empty : SmartContract where
  contractId := []
  creator := []
  code := []
  state := ∅
  events := []
  isActive := false
  createdAt := 0
  bounded := Nat.zero_le _

/-- The constructor, with the reading of the clock. -/
def create (id creatorId contractCode : Str) (now : UInt64) : SmartContract where
  contractId := id
  creator := creatorId
  code := contractCode
  state := ∅
  events := []
  isActive := true
  createdAt := now
  bounded := Nat.zero_le _

/-- `activate`. -/
def activate (contract : SmartContract) : SmartContract := { contract with isActive := true }

/-- `deactivate`. -/
def deactivate (contract : SmartContract) : SmartContract := { contract with isActive := false }

/-- `emitEvent`. -/
def emitEvent (contract : SmartContract) (event : Str) : SmartContract :=
  { contract with
    events := pushEvict eventLimit contract.events event
    bounded := length_pushEvict_le contract.bounded event }

/-- `execute`. -/
def execute (contract : SmartContract) (function : Str) (_args : List ContractValue) :
    Bool × SmartContract :=
  if ¬contract.isActive then (false, contract)
  else (true, contract.emitEvent (ascii "execute:" ++ function))

/-- `getState`. -/
def getState (contract : SmartContract) (key : Str) : ContractValue :=
  contract.state[key]?.getD (.string [])

/-- `setState`. -/
def setState (contract : SmartContract) (key : Str) (value : ContractValue) : SmartContract :=
  { contract with state := contract.state.insert key value }.emitEvent
    (ascii "state_change:" ++ key)

/-- `getEvents`. -/
def getEvents (contract : SmartContract) : List Str := contract.events

end SmartContract

/-! ## The engine -/

/-- `SmartContractEngine`. -/
structure SmartContractEngine where
  contracts : Map Str SmartContract
  creatorContracts : Map Str (List Str)

namespace SmartContractEngine

/-- The constructor. -/
def create : SmartContractEngine := ⟨∅, ∅⟩

/-- `deployContract`. -/
def deployContract (engine : SmartContractEngine) (contract : SmartContract) :
    Bool × SmartContractEngine :=
  match engine.contracts.lookup contract.contractId with
  | some _ => (false, engine)
  | none =>
    (true,
      { contracts := engine.contracts.insert contract.contractId contract
        creatorContracts :=
          modifyAt engine.creatorContracts contract.creator (· ++ [contract.contractId]) })

/-- Runs a call on the contract under an id, if there is one. -/
def onContract (engine : SmartContractEngine) (contractId : Str)
    (call : SmartContract → Bool × SmartContract) : Bool × SmartContractEngine :=
  match engine.contracts.lookup contractId with
  | none => (false, engine)
  | some contract =>
    ((call contract).1,
      { engine with contracts := engine.contracts.insert contractId (call contract).2 })

/-- `executeContract`. -/
def executeContract (engine : SmartContractEngine) (contractId function : Str)
    (args : List ContractValue) : Bool × SmartContractEngine :=
  engine.onContract contractId fun contract => contract.execute function args

/-- `suspendContract`. -/
def suspendContract (engine : SmartContractEngine) (contractId : Str) :
    Bool × SmartContractEngine :=
  engine.onContract contractId fun contract => (true, contract.deactivate)

/-- `activateContract`. -/
def activateContract (engine : SmartContractEngine) (contractId : Str) :
    Bool × SmartContractEngine :=
  engine.onContract contractId fun contract => (true, contract.activate)

/-- `getContract`. -/
def getContract (engine : SmartContractEngine) (contractId : Str) : SmartContract :=
  (engine.contracts.lookup contractId).getD SmartContract.empty

/-- `getContractsByCreator`, `none` when `contracts.at` throws. -/
def getContractsByCreator (engine : SmartContractEngine) (creatorId : Str) :
    Option (List SmartContract) :=
  gather engine.contracts engine.creatorContracts creatorId

/-- `getContractCount`. -/
def getContractCount (engine : SmartContractEngine) : Nat := engine.contracts.keys.card

end SmartContractEngine

/-- A request to the engine. -/
inductive ContractRequest where
  | deployContract (contract : SmartContract)
  | executeContract (contractId function : Str) (args : List ContractValue)
  | suspendContract (contractId : Str)
  | activateContract (contractId : Str)
  | getContract (contractId : Str)
  | getContractsByCreator (creatorId : Str)
  | getContractCount

/-- What a request gives back. -/
inductive ContractAnswer where
  | flag (b : Bool)
  | contract (contract : SmartContract)
  | contracts (contracts : Option (List SmartContract))
  | count (n : Nat)

/-- A call that answers with a flag. -/
def ContractAnswer.flagged {S : Type} (result : Bool × S) : ContractAnswer × S :=
  (.flag result.1, result.2)

/-- The engine answers a request. -/
def engineAnswer (engine : SmartContractEngine) :
    ContractRequest → ContractAnswer × SmartContractEngine
  | .deployContract contract => ContractAnswer.flagged (engine.deployContract contract)
  | .executeContract contractId function args =>
    ContractAnswer.flagged (engine.executeContract contractId function args)
  | .suspendContract contractId => ContractAnswer.flagged (engine.suspendContract contractId)
  | .activateContract contractId => ContractAnswer.flagged (engine.activateContract contractId)
  | .getContract contractId => (.contract (engine.getContract contractId), engine)
  | .getContractsByCreator creatorId =>
    (.contracts (engine.getContractsByCreator creatorId), engine)
  | .getContractCount => (.count engine.getContractCount, engine)

/-! ## Deployments -/

/-- A contract as it was deployed, its status, and the functions executed since. -/
structure Deployment where
  deployed : SmartContract
  active : Bool
  executed : List Str

namespace Deployment

/-- The contract of a deployment as it is now. -/
def now (d : Deployment) : SmartContract :=
  { d.deployed with
    isActive := d.active
    events := (d.deployed.events ++ d.executed.map (ascii "execute:" ++ ·)).rtake eventLimit
    bounded := by
      rw [length_rtake]
      exact Nat.min_le_left _ _ }

/-- A function is executed by an active contract. -/
def execute (d : Deployment) (function : Str) : Bool × Deployment :=
  (d.active, if d.active then { d with executed := d.executed ++ [function] } else d)

end Deployment

/-- A call on the deployment under an id, where it stands. -/
def callDeployment (deployments : List Deployment) (contractId : Str)
    (call : Deployment → Bool × Deployment) : Bool × List Deployment :=
  ((deployments.find? (·.deployed.contractId = contractId)).any fun d => (call d).1,
    deployments.map fun d => if d.deployed.contractId = contractId then (call d).2 else d)

/-- A list of deployments in the order of their making answers a request. -/
def deploymentsAnswer (deployments : List Deployment) :
    ContractRequest → ContractAnswer × List Deployment
  | .deployContract contract =>
    if deployments.any (·.deployed.contractId = contract.contractId) then (.flag false, deployments)
    else (.flag true, deployments ++ [⟨contract, contract.isActive, []⟩])
  | .executeContract contractId function _ =>
    ContractAnswer.flagged (callDeployment deployments contractId (·.execute function))
  | .suspendContract contractId =>
    ContractAnswer.flagged
      (callDeployment deployments contractId fun d => (true, { d with active := false }))
  | .activateContract contractId =>
    ContractAnswer.flagged
      (callDeployment deployments contractId fun d => (true, { d with active := true }))
  | .getContract contractId =>
    (.contract (((deployments.find? (·.deployed.contractId = contractId)).map
      Deployment.now).getD SmartContract.empty), deployments)
  | .getContractsByCreator creatorId =>
    (.contracts (some ((deployments.filter (·.deployed.creator = creatorId)).map Deployment.now)),
      deployments)
  | .getContractCount => (.count deployments.length, deployments)

/-! ## The engine follows the deployments -/

/-- The engine holds the contracts of the deployments as they are now. -/
abbrev Deployed (engine : SmartContractEngine) (deployments : List Deployment) : Prop :=
  Represents SmartContract.contractId SmartContract.creator engine.contracts
    engine.creatorContracts (deployments.map Deployment.now)

/-- A call on a contract and a call on its deployment that give the same result. -/
structure SameCall (call : SmartContract → Bool × SmartContract)
    (call' : Deployment → Bool × Deployment) : Prop where
  flag : ∀ d, (call d.now).1 = (call' d).1
  next : ∀ d, (call d.now).2 = (call' d).2.now
  contractId : ∀ contract, (call contract).2.contractId = contract.contractId
  creator : ∀ contract, (call contract).2.creator = contract.creator

theorem now_contractId (d : Deployment) : d.now.contractId = d.deployed.contractId := rfl

theorem now_creator (d : Deployment) : d.now.creator = d.deployed.creator := rfl

theorem now_deployed (contract : SmartContract) :
    Deployment.now ⟨contract, contract.isActive, []⟩ = contract := by
  simp only [Deployment.now, List.map_nil, List.append_nil, rtake_of_length_le contract.bounded]

/-- The event of an execution is the next one of the whole list. -/
theorem emitEvent_now (d : Deployment) (function : Str) :
    d.now.emitEvent (ascii "execute:" ++ function) =
      Deployment.now { d with executed := d.executed ++ [function] } := by
  simp only [SmartContract.emitEvent, Deployment.now, pushEvict_rtake, List.map_append,
    List.map_cons, List.map_nil, List.append_assoc]

theorem sameCall_execute (function : Str) (args : List ContractValue) :
    SameCall (·.execute function args) (·.execute function) where
  flag d := by
    show (SmartContract.execute d.now function args).1 = d.active
    unfold SmartContract.execute
    split
    · rename_i hactive
      exact (Bool.eq_false_of_not_eq_true hactive).symm
    · rename_i hactive
      exact (not_not.mp hactive).symm
  next d := by
    show (SmartContract.execute d.now function args).2 = _
    have hstatus : d.now.isActive = d.active := rfl
    unfold SmartContract.execute Deployment.execute
    rw [hstatus]
    cases hactive : d.active with
    | true =>
      rw [if_neg (not_not.mpr rfl), if_pos rfl, emitEvent_now]
      simp only [Deployment.now, hactive]
    | false =>
      rw [if_pos Bool.false_ne_true, if_neg Bool.false_ne_true]
  contractId contract := by
    unfold SmartContract.execute
    split <;> rfl
  creator contract := by
    unfold SmartContract.execute
    split <;> rfl

theorem sameCall_deactivate : SameCall (fun contract => (true, contract.deactivate))
    (fun d => (true, { d with active := false })) where
  flag _ := rfl
  next d := by simp only [SmartContract.deactivate, Deployment.now]
  contractId _ := rfl
  creator _ := rfl

theorem sameCall_activate : SameCall (fun contract => (true, contract.activate))
    (fun d => (true, { d with active := true })) where
  flag _ := rfl
  next d := by simp only [SmartContract.activate, Deployment.now]
  contractId _ := rfl
  creator _ := rfl

section Requests

variable {engine : SmartContractEngine} {deployments : List Deployment}
  (h : Deployed engine deployments)
include h

theorem Deployed.find (contractId : Str) :
    engine.contracts.lookup contractId =
      (deployments.find? (·.deployed.contractId = contractId)).map Deployment.now := by
  rw [h.lookup, List.find?_map]
  rfl

theorem Deployed.call (contractId : Str) {call : SmartContract → Bool × SmartContract}
    {call' : Deployment → Bool × Deployment} (hsame : SameCall call call') :
    (engine.onContract contractId call).1 = (callDeployment deployments contractId call').1 ∧
      Deployed (engine.onContract contractId call).2
        (callDeployment deployments contractId call').2 := by
  have hmap : (callDeployment deployments contractId call').2.map Deployment.now =
      (deployments.map Deployment.now).map fun contract =>
        if contract.contractId = contractId then (call contract).2 else contract := by
    rw [callDeployment, List.map_map, List.map_map]
    congr 1
    funext d
    simp only [Function.comp_apply]
    rw [now_contractId, apply_ite Deployment.now, hsame.next]
  unfold SmartContractEngine.onContract
  rw [Deployed, hmap]
  cases hlookup : engine.contracts.lookup contractId with
  | none =>
    rw [h.map_eq_self hlookup fun contract => (call contract).2]
    rw [h.find, Option.map_eq_none_iff] at hlookup
    exact ⟨by rw [callDeployment, hlookup]; rfl, h⟩
  | some contract =>
    refine ⟨?_, h.update hlookup (f := fun contract => (call contract).2) hsame.contractId
      hsame.creator⟩
    obtain ⟨d, hfind, rfl⟩ := Option.map_eq_some_iff.mp ((h.find contractId).symm.trans hlookup)
    rw [callDeployment, hfind]
    exact hsame.flag d

theorem Deployed.deploy (contract : SmartContract) :
    (engineAnswer engine (.deployContract contract)).1 =
      (deploymentsAnswer deployments (.deployContract contract)).1 ∧
    Deployed (engineAnswer engine (.deployContract contract)).2
      (deploymentsAnswer deployments (.deployContract contract)).2 := by
  have hfind := h.find contract.contractId
  simp only [engineAnswer, deploymentsAnswer, SmartContractEngine.deployContract,
    ContractAnswer.flagged]
  cases hlookup : engine.contracts.lookup contract.contractId with
  | none =>
    rw [hlookup, eq_comm, Option.map_eq_none_iff, List.find?_eq_none] at hfind
    have hany : deployments.any (·.deployed.contractId = contract.contractId) = false := by
      rw [List.any_eq_false]
      exact hfind
    have hnext := h.enter hlookup
    simp only [hany, Bool.false_eq_true, if_false]
    rw [Deployed, List.map_append, List.map_singleton, now_deployed]
    exact ⟨trivial, hnext⟩
  | some other =>
    rw [hlookup, eq_comm, Option.map_eq_some_iff] at hfind
    obtain ⟨d, hd, -⟩ := hfind
    have hany : deployments.any (·.deployed.contractId = contract.contractId) = true :=
      List.any_eq_true.mpr ⟨d, List.mem_of_find?_eq_some hd, by simpa using List.find?_some hd⟩
    simp only [hany, if_true]
    exact ⟨trivial, h⟩

/-- A request gets the same answer from both and keeps them together. -/
theorem Deployed.answer (request : ContractRequest) :
    (engineAnswer engine request).1 = (deploymentsAnswer deployments request).1 ∧
      Deployed (engineAnswer engine request).2 (deploymentsAnswer deployments request).2 := by
  cases request with
  | deployContract contract => exact h.deploy contract
  | executeContract contractId function args =>
    obtain ⟨hflag, hnext⟩ := h.call contractId (sameCall_execute function args)
    exact ⟨congrArg ContractAnswer.flag hflag, hnext⟩
  | suspendContract contractId =>
    obtain ⟨hflag, hnext⟩ := h.call contractId sameCall_deactivate
    exact ⟨congrArg ContractAnswer.flag hflag, hnext⟩
  | activateContract contractId =>
    obtain ⟨hflag, hnext⟩ := h.call contractId sameCall_activate
    exact ⟨congrArg ContractAnswer.flag hflag, hnext⟩
  | getContract contractId =>
    simp only [engineAnswer, deploymentsAnswer, SmartContractEngine.getContract, h.find]
    exact ⟨trivial, h⟩
  | getContractsByCreator creatorId =>
    simp only [engineAnswer, deploymentsAnswer, SmartContractEngine.getContractsByCreator,
      h.gather, List.filter_map]
    exact ⟨rfl, h⟩
  | getContractCount =>
    simp only [engineAnswer, deploymentsAnswer, SmartContractEngine.getContractCount, h.card_keys,
      List.length_map]
    exact ⟨trivial, h⟩

end Requests

/-- The engine answers every sequence of requests as the list of deployments: a deployed contract
is the one that was deployed, with its status and its last 1000 events, and
`getContractsByCreator` never throws. -/
theorem engineAnswers_eq (requests : List ContractRequest) :
    answers engineAnswer SmartContractEngine.create requests =
      answers deploymentsAnswer [] requests :=
  answers_eq_of_simulation' (fun _ _ request h => Deployed.answer h request) represents_empty
    requests

end Blackstone.Bank
