import Blackstone.Bank.Blockchain
import Blackstone.Library.CumulativeChoice
import Blackstone.Library.OrderedMap
import Blackstone.Library.Runs
import Mathlib.Algebra.Order.Field.Rat
import Mathlib.Algebra.Order.Ring.NNRat
import Mathlib.Data.List.GetD

/-!
# The consensus engine

`consensus.cpp`, with exact rational stakes. The selection by stake walks through `stakes` and
the validation of a block through `validators`, which the methods change separately: a stake
can belong to nobody, and a draw of zero stops at the first stake even when it is zero. The two
agree for every draw in a state exactly when the state is `Eligible` (`agrees_iff`).

A random draw is an argument, and so is the round robin index, which is a static variable and
shared by all engines.
-/

namespace Blackstone.Bank

open CumulativeChoice OrderedMap Runs

/-- `ConsensusType`. -/
inductive ConsensusType where
  | proofOfWork
  | proofOfStake
  | proofOfAuthority
  | proofOfElapsedTime
  | delegatedProofOfStake
  | practicalByzantineFaultTolerance
  deriving DecidableEq

/-- `ConsensusEngine`, without the scores, which nothing reads. -/
structure ConsensusEngine where
  type : ConsensusType
  validators : List Str
  stakes : Std.TreeMap Str ℚ≥0
  currentRound : UInt64

/-- What the generators of a selection draw: `u64()` and `uniform()`. -/
structure Draw where
  u64 : UInt64
  uniform : ℚ≥0
  uniform_lt : uniform < 1

namespace ConsensusEngine

/-- The constructor. -/
def create (ct : ConsensusType) : ConsensusEngine where
  type := ct
  validators := []
  stakes := ∅
  currentRound := 0

/-- `ConsensusEngine::setType`. -/
def setType (s : ConsensusEngine) (ct : ConsensusType) : ConsensusEngine := { s with type := ct }

/-- `ConsensusEngine::addValidator`. -/
def addValidator (s : ConsensusEngine) (validatorId : Str) (stake : ℚ≥0) : ConsensusEngine :=
  { s with
    validators := s.validators ++ [validatorId]
    stakes := s.stakes.insert validatorId stake }

/-- `ConsensusEngine::removeValidator`. -/
def removeValidator (s : ConsensusEngine) (validatorId : Str) : ConsensusEngine :=
  { s with
    validators := s.validators.erase validatorId
    stakes := s.stakes.erase validatorId }

/-- `ConsensusEngine::updateStake`. -/
def updateStake (s : ConsensusEngine) (validatorId : Str) (newStake : ℚ≥0) : ConsensusEngine :=
  { s with stakes := s.stakes.insert validatorId newStake }

/-- The validator at an index modulo their number. -/
def validatorAt (s : ConsensusEngine) (index : UInt64) : Str :=
  s.validators.getD (index.toNat % s.validators.length) []

/-- `ConsensusEngine::selectPoWValidator`. -/
def selectPoWValidator (s : ConsensusEngine) (draw : Draw) : Str :=
  if s.validators = [] then [] else s.validatorAt draw.u64

/-- `totalStake`. -/
def totalStake (s : ConsensusEngine) : ℚ≥0 := total s.stakes.toList

/-- `ConsensusEngine::selectPoSValidator`. -/
def selectPoSValidator (s : ConsensusEngine) (draw : Draw) : Str :=
  if s.totalStake = 0 then s.selectPoWValidator draw
  else
    match pick (draw.uniform * s.totalStake) 0 s.stakes.toList with
    | some e => e.1
    | none => s.validators.headD []

/-- `ConsensusEngine::selectPoAValidator`, with the index that it leaves. -/
def selectPoAValidator (s : ConsensusEngine) (roundRobinIndex : UInt64) : Str × UInt64 :=
  if s.validators = [] then ([], roundRobinIndex)
  else (s.validatorAt roundRobinIndex, roundRobinIndex + 1)

/-- `ConsensusEngine::selectDPoSValidator`. -/
def selectDPoSValidator (s : ConsensusEngine) (draw : Draw) : Str := s.selectPoSValidator draw

/-- `ConsensusEngine::selectPBFTValidator`. -/
def selectPBFTValidator (s : ConsensusEngine) (draw : Draw) : Str :=
  if s.validators.length < 4 then s.selectPoWValidator draw else s.validatorAt s.currentRound

/-- `ConsensusEngine::selectValidator`, with the engine and the index that it leaves. -/
def selectValidator (s : ConsensusEngine) (roundRobinIndex : UInt64) (draw : Draw)
    (_chain : List Block) : Str × ConsensusEngine × UInt64 :=
  let s := { s with currentRound := s.currentRound + 1 }
  match s.type with
  | .proofOfWork => (s.selectPoWValidator draw, s, roundRobinIndex)
  | .proofOfStake => (s.selectPoSValidator draw, s, roundRobinIndex)
  | .proofOfAuthority =>
    let selected := s.selectPoAValidator roundRobinIndex
    (selected.1, s, selected.2)
  | .delegatedProofOfStake => (s.selectDPoSValidator draw, s, roundRobinIndex)
  | .practicalByzantineFaultTolerance => (s.selectPBFTValidator draw, s, roundRobinIndex)
  | .proofOfElapsedTime => (s.selectPoWValidator draw, s, roundRobinIndex)

/-- `ConsensusEngine::validateBlock`. -/
def validateBlock (s : ConsensusEngine) (block : Block) (chain : List Block) : Bool :=
  if block.validator = [] then false
  else
    let isValidValidator := s.validators.any (· == block.validator)
    if isValidValidator = false then false
    else if block.index ≠ Int32.ofNat chain.length then false
    else true

/-! ## Runs -/

/-- A call of a method that changes the engine. -/
inductive Method where
  | setType (ct : ConsensusType)
  | addValidator (validatorId : Str) (stake : ℚ≥0)
  | removeValidator (validatorId : Str)
  | updateStake (validatorId : Str) (newStake : ℚ≥0)
  | selectValidator (roundRobinIndex : UInt64) (draw : Draw) (chain : List Block)

/-- The engine after a call. -/
def step (s : ConsensusEngine) : Method → ConsensusEngine
  | .setType ct => s.setType ct
  | .addValidator validatorId stake => s.addValidator validatorId stake
  | .removeValidator validatorId => s.removeValidator validatorId
  | .updateStake validatorId newStake => s.updateStake validatorId newStake
  | .selectValidator roundRobinIndex draw chain =>
    (s.selectValidator roundRobinIndex draw chain).2.1

/-- A mode that selects by stake, with a stake to select by. -/
def ByStake (s : ConsensusEngine) : Prop :=
  (s.type = .proofOfStake ∨ s.type = .delegatedProofOfStake) ∧ 0 < s.totalStake

/-- A registered validator, with a stake where there is one to select by, whose blocks are
accepted at the end of the chain. -/
structure Suitable (s : ConsensusEngine) (id : Str) : Prop where
  registered : id ∈ s.validators
  staked : s.ByStake → ∃ stake, s.stakes[id]? = some stake ∧ 0 < stake
  accepted : ∀ (block : Block) (chain : List Block), block.validator = id →
    block.index.toInt = chain.length → s.validateBlock block chain = true

/-- Where there are validators, every selection is of a suitable one. -/
def Agrees (s : ConsensusEngine) : Prop :=
  s.validators ≠ [] → ∀ roundRobinIndex draw chain,
    Suitable s (s.selectValidator roundRobinIndex draw chain).1

/-- By stake, the first stake is not zero and the stakes belong to validators with a name. In the
other modes, the validators whose turn it can be have a name. -/
def Eligible (s : ConsensusEngine) : Prop :=
  s.validators ≠ [] →
    (s.ByStake →
      (∀ e, s.stakes.toList.head? = some e → 0 < e.2) ∧
        ∀ e ∈ s.stakes.toList, 0 < e.2 → e.1 ∈ s.validators ∧ e.1 ≠ []) ∧
    (¬ s.ByStake →
      if s.type = .practicalByzantineFaultTolerance ∧ 4 ≤ s.validators.length then
        s.validatorAt (s.currentRound + 1) ≠ []
      else [] ∉ s.validators.take (2 ^ 64))

/-! ## What is selected -/

section Selection

variable {s : ConsensusEngine} {id : Str}

/-- A selection changes the round only. -/
theorem selectValidator_engine (s : ConsensusEngine) (roundRobinIndex : UInt64) (draw : Draw)
    (chain : List Block) :
    (s.selectValidator roundRobinIndex draw chain).2.1 =
      { s with currentRound := s.currentRound + 1 } := by
  rw [selectValidator]
  cases htype : s.type with
  | _ => rfl

theorem validatorAt_mem (hne : s.validators ≠ []) (index : UInt64) :
    s.validatorAt index ∈ s.validators := by
  have hlt := Nat.mod_lt index.toNat (List.length_pos_of_ne_nil hne)
  rw [validatorAt, List.getD_eq_getElem _ _ hlt]
  exact List.getElem_mem hlt

theorem exists_validatorAt_iff (hne : s.validators ≠ []) :
    (∃ index, s.validatorAt index = id) ↔ id ∈ s.validators.take (2 ^ 64) := by
  have hpos := List.length_pos_of_ne_nil hne
  rw [List.mem_take_iff_getElem]
  constructor
  · rintro ⟨index, rfl⟩
    have hlt := Nat.mod_lt index.toNat hpos
    have hword := (Nat.mod_le index.toNat s.validators.length).trans_lt index.toNat_lt
    refine ⟨index.toNat % s.validators.length, lt_min hword hlt, ?_⟩
    rw [validatorAt, List.getD_eq_getElem _ _ hlt]
  · rintro ⟨i, hi, rfl⟩
    obtain ⟨hword, hlt⟩ := lt_min_iff.mp hi
    refine ⟨UInt64.ofNat i, ?_⟩
    rw [validatorAt, UInt64.toNat_ofNat_of_lt' hword, Nat.mod_eq_of_lt hlt,
      List.getD_eq_getElem _ _ hlt]

theorem selectPoWValidator_eq (hne : s.validators ≠ []) (draw : Draw) :
    s.selectPoWValidator draw = s.validatorAt draw.u64 := if_neg hne

theorem selectPoSValidator_of_zero (hne : s.validators ≠ []) (hzero : s.totalStake = 0)
    (draw : Draw) : s.selectPoSValidator draw = s.validatorAt draw.u64 := by
  rw [selectPoSValidator, if_pos hzero, selectPoWValidator_eq hne]

theorem selectValidator_byStake (h : s.ByStake) (roundRobinIndex : UInt64) (draw : Draw)
    (chain : List Block) :
    (s.selectValidator roundRobinIndex draw chain).1 = s.selectPoSValidator draw := by
  rcases h.1 with htype | htype
  · simp only [selectValidator, htype]
    rfl
  · simp only [selectValidator, htype]
    rfl

/-- The walk stops at a stake. -/
theorem selectPoSValidator_eq_iff (h : s.ByStake) (draw : Draw) :
    s.selectPoSValidator draw = id ↔
      ∃ e, e.1 = id ∧ pick (draw.uniform * s.totalStake) 0 s.stakes.toList = some e := by
  have hne : s.stakes.toList ≠ [] := by
    intro hnil
    have hpos := h.2
    rw [totalStake, hnil, total_nil] at hpos
    exact lt_irrefl _ hpos
  have hle : draw.uniform * s.totalStake ≤ 0 + total s.stakes.toList := by
    rw [zero_add]
    exact mul_le_of_le_one_left' draw.uniform_lt.le
  obtain ⟨e, he⟩ := Option.isSome_iff_exists.mp (pick_isSome hne hle)
  rw [selectPoSValidator, if_neg h.2.ne']
  simp only [he, Option.some_inj]
  constructor
  · exact fun heq => ⟨e, heq, rfl⟩
  · rintro ⟨e', heq, rfl⟩
    exact heq

theorem exists_selected_byStake_iff (h : s.ByStake) :
    (∃ roundRobinIndex draw chain, (s.selectValidator roundRobinIndex draw chain).1 = id) ↔
      ∃ e, e.1 = id ∧ (s.stakes.toList.head? = some e ∨ e ∈ s.stakes.toList ∧ 0 < e.2) := by
  simp only [selectValidator_byStake h, selectPoSValidator_eq_iff h]
  constructor
  · rintro ⟨-, draw, -, e, heq, hpick⟩
    exact ⟨e, heq, (exists_pick_iff h.2).mp ⟨draw.uniform, draw.uniform_lt, hpick⟩⟩
  · rintro ⟨e, heq, he⟩
    obtain ⟨f, hf, hpick⟩ := (exists_pick_iff h.2).mpr he
    exact ⟨0, ⟨0, f, hf⟩, [], e, heq, hpick⟩

theorem selectValidator_byRound
    (h : s.type = .practicalByzantineFaultTolerance ∧ 4 ≤ s.validators.length)
    (roundRobinIndex : UInt64) (draw : Draw) (chain : List Block) :
    (s.selectValidator roundRobinIndex draw chain).1 = s.validatorAt (s.currentRound + 1) := by
  simp only [selectValidator, h.1, selectPBFTValidator, if_neg (not_lt.mpr h.2)]
  rfl

/-- In the other modes, an index is drawn or taken from the round robin. -/
theorem selectValidator_byIndex (hne : s.validators ≠ []) (hstake : ¬ s.ByStake)
    (hround : ¬ (s.type = .practicalByzantineFaultTolerance ∧ 4 ≤ s.validators.length))
    (roundRobinIndex : UInt64) (draw : Draw) (chain : List Block) :
    (s.selectValidator roundRobinIndex draw chain).1 =
      s.validatorAt (if s.type = .proofOfAuthority then roundRobinIndex else draw.u64) := by
  have hzero : s.type = .proofOfStake ∨ s.type = .delegatedProofOfStake → s.totalStake = 0 := by
    intro htype
    by_contra hstakes
    exact hstake ⟨htype, pos_iff_ne_zero.mpr hstakes⟩
  rw [selectValidator]
  cases htype : s.type with
  | proofOfWork => exact selectPoWValidator_eq hne draw
  | proofOfStake => exact selectPoSValidator_of_zero hne (hzero (Or.inl htype)) draw
  | proofOfAuthority =>
    simp only [selectPoAValidator, if_neg hne]
    rfl
  | proofOfElapsedTime => exact selectPoWValidator_eq hne draw
  | delegatedProofOfStake => exact selectPoSValidator_of_zero hne (hzero (Or.inr htype)) draw
  | practicalByzantineFaultTolerance =>
    have hfew : s.validators.length < 4 := not_le.mp (fun h => hround ⟨htype, h⟩)
    simp only [selectPBFTValidator, if_pos hfew]
    exact selectPoWValidator_eq hne draw

theorem exists_selected_byIndex_iff (hne : s.validators ≠ []) (hstake : ¬ s.ByStake)
    (hround : ¬ (s.type = .practicalByzantineFaultTolerance ∧ 4 ≤ s.validators.length)) :
    (∃ roundRobinIndex draw chain, (s.selectValidator roundRobinIndex draw chain).1 = id) ↔
      id ∈ s.validators.take (2 ^ 64) := by
  rw [← exists_validatorAt_iff hne]
  simp only [selectValidator_byIndex hne hstake hround]
  constructor
  · rintro ⟨roundRobinIndex, draw, -, heq⟩
    exact ⟨_, heq⟩
  · rintro ⟨index, heq⟩
    refine ⟨index, ⟨index, 0, zero_lt_one⟩, [], ?_⟩
    rwa [ite_self]

/-! ## Agreement -/

theorem suitable_iff :
    Suitable s id ↔ id ∈ s.validators ∧ id ≠ [] ∧
      (s.ByStake → ∃ stake, s.stakes[id]? = some stake ∧ 0 < stake) := by
  constructor
  · intro h
    refine ⟨h.registered, ?_, h.staked⟩
    rintro rfl
    have haccepted := h.accepted ⟨0, [], 0, [], [], [], 0, [], 0, []⟩ [] rfl rfl
    rw [validateBlock, if_pos rfl] at haccepted
    cases haccepted
  · rintro ⟨hmem, hne, hstaked⟩
    refine ⟨hmem, hstaked, fun block chain hid hindex => ?_⟩
    have hcast : block.index = Int32.ofNat chain.length := by
      rw [← Int32.ofInt_toInt block.index, hindex]
      exact Int32.ofInt_eq_ofNat
    have hvalid : s.validators.any (· == id) = true :=
      List.any_eq_true.mpr ⟨id, hmem, beq_self_eq_true id⟩
    rw [validateBlock, hid, if_neg hne]
    simp only [hvalid, Bool.true_eq_false, if_false, if_neg (not_not.mpr hcast)]

theorem suitable_byStake_iff (hstake : s.ByStake) :
    (∀ id, (∃ roundRobinIndex draw chain,
      (s.selectValidator roundRobinIndex draw chain).1 = id) → Suitable s id) ↔
        (∀ e, s.stakes.toList.head? = some e → 0 < e.2) ∧
          ∀ e ∈ s.stakes.toList, 0 < e.2 → e.1 ∈ s.validators ∧ e.1 ≠ [] := by
  simp only [exists_selected_byStake_iff hstake, suitable_iff, hstake, forall_true_left]
  have hlookup : ∀ e ∈ s.stakes.toList, s.stakes[e.1]? = some e.2 := fun e he =>
    Std.TreeMap.mem_toList_iff_getElem?_eq_some.mp he
  constructor
  · intro h
    refine ⟨fun e hhead => ?_, fun e he hpos => ?_⟩
    · obtain ⟨-, -, stake, hstake', hpos⟩ := h e.1 ⟨e, rfl, Or.inl hhead⟩
      rw [hlookup e (List.mem_of_mem_head? hhead)] at hstake'
      rwa [Option.some.inj hstake']
    · obtain ⟨hmem, hname, -⟩ := h e.1 ⟨e, rfl, Or.inr ⟨he, hpos⟩⟩
      exact ⟨hmem, hname⟩
  · rintro ⟨hfirst, hrest⟩ id ⟨e, rfl, he⟩
    have hentry : e ∈ s.stakes.toList ∧ 0 < e.2 := by
      rcases he with hhead | hentry
      · exact ⟨List.mem_of_mem_head? hhead, hfirst e hhead⟩
      · exact hentry
    obtain ⟨hmem, hname⟩ := hrest e hentry.1 hentry.2
    exact ⟨hmem, hname, e.2, hlookup e hentry.1, hentry.2⟩

theorem suitable_byTurn_iff (hne : s.validators ≠ []) (hstake : ¬ s.ByStake) :
    (∀ id, (∃ roundRobinIndex draw chain,
      (s.selectValidator roundRobinIndex draw chain).1 = id) → Suitable s id) ↔
        if s.type = .practicalByzantineFaultTolerance ∧ 4 ≤ s.validators.length then
          s.validatorAt (s.currentRound + 1) ≠ []
        else [] ∉ s.validators.take (2 ^ 64) := by
  simp only [suitable_iff, hstake, false_implies, and_true]
  by_cases hround : s.type = .practicalByzantineFaultTolerance ∧ 4 ≤ s.validators.length
  · rw [if_pos hround]
    simp only [selectValidator_byRound hround]
    constructor
    · intro h
      exact (h _ ⟨0, ⟨0, 0, zero_lt_one⟩, [], rfl⟩).2
    · rintro h id ⟨-, -, -, rfl⟩
      exact ⟨validatorAt_mem hne _, h⟩
  · rw [if_neg hround]
    simp only [exists_selected_byIndex_iff hne hstake hround]
    constructor
    · intro h hmem
      exact (h [] hmem).2 rfl
    · rintro h id hmem
      refine ⟨List.mem_of_mem_take hmem, ?_⟩
      rintro rfl
      exact h hmem

/-- The selections of a state are suitable exactly when the state is eligible. -/
theorem agrees_iff (s : ConsensusEngine) : s.Agrees ↔ s.Eligible := by
  have hall : s.Agrees ↔ (s.validators ≠ [] → ∀ id, (∃ roundRobinIndex draw chain,
      (s.selectValidator roundRobinIndex draw chain).1 = id) → Suitable s id) := by
    refine forall_congr' fun _ => ⟨?_, fun h r draw chain => h _ ⟨r, draw, chain, rfl⟩⟩
    rintro h id ⟨roundRobinIndex, draw, chain, rfl⟩
    exact h roundRobinIndex draw chain
  rw [hall, Eligible]
  refine forall_congr' fun hne => ?_
  by_cases hstake : s.ByStake
  · rw [suitable_byStake_iff hstake, forall_prop_of_true hstake]
    exact (and_iff_left fun hnot => absurd hstake hnot).symm
  · rw [suitable_byTurn_iff hne hstake, forall_prop_of_true hstake]
    exact (and_iff_right fun hyes => absurd hyes hstake).symm

end Selection

/-- In every state of a run the selections are suitable exactly when every state is eligible. -/
theorem agrees_run_iff (ct : ConsensusType) (methods : List Method) :
    (∀ n, (run step (create ct) (methods.take n)).Agrees) ↔
      ∀ n, (run step (create ct) (methods.take n)).Eligible :=
  forall_congr' fun _ => agrees_iff _

/-- A stake can belong to nobody, and is selected. -/
theorem selects_unregistered :
    let s := run step (create .proofOfStake)
      [.addValidator (ascii "a") 1, .updateStake (ascii "b") 1]
    (∃ draw, (s.selectValidator 0 draw []).1 = ascii "b") ∧ ascii "b" ∉ s.validators ∧
      ¬ s.Agrees := by
  intro s
  have hentries : s.stakes.toList = [(ascii "a", 1), (ascii "b", 1)] := rfl
  have htotal : s.totalStake = 2 := by
    rw [totalStake, hentries, total_cons, total_cons, total_nil, add_zero, one_add_one_eq_two]
  have hstake : s.ByStake := ⟨Or.inl rfl, by rw [htotal]; exact two_pos⟩
  have hmem : (ascii "b", (1 : ℚ≥0)) ∈ s.stakes.toList := by
    rw [hentries]
    exact List.mem_cons_of_mem _ List.mem_cons_self
  have hunregistered : ascii "b" ∉ s.validators := by decide
  have hselected : ∃ roundRobinIndex draw chain,
      (s.selectValidator roundRobinIndex draw chain).1 = ascii "b" :=
    (exists_selected_byStake_iff hstake).mpr ⟨_, rfl, Or.inr ⟨hmem, one_pos⟩⟩
  obtain ⟨roundRobinIndex, draw, chain, heq⟩ := hselected
  refine ⟨⟨draw, ?_⟩, hunregistered, fun h => hunregistered ?_⟩
  · rw [selectValidator_byStake hstake] at heq ⊢
    exact heq
  · rw [← heq]
    exact (h (by decide) roundRobinIndex draw chain).registered

/-! ## Sound runs -/

/-- A new validator has a name and a stake, and only the stakes of validators are updated. -/
def Sound (s : ConsensusEngine) : Method → Prop
  | .addValidator validatorId stake =>
    validatorId ≠ [] ∧ validatorId ∉ s.validators ∧ 0 < stake
  | .updateStake validatorId newStake => validatorId ∈ s.validators ∧ 0 < newStake
  | _ => True

/-- The validators are different and have names, and every stake belongs to one of them. -/
structure Registered (s : ConsensusEngine) : Prop where
  nodup : s.validators.Nodup
  named : [] ∉ s.validators
  staked : ∀ (id : Str) (stake : ℚ≥0), s.stakes[id]? = some stake → id ∈ s.validators ∧ 0 < stake

theorem registered_create (ct : ConsensusType) : (create ct).Registered where
  nodup := List.nodup_nil
  named := List.not_mem_nil
  staked id stake h := by
    rw [create, Std.TreeMap.getElem?_emptyc] at h
    cases h

theorem Registered.insert_stake {s : ConsensusEngine} (h : s.Registered) {id : Str} {stake : ℚ≥0}
    (hpos : 0 < stake) (id' : Str) (stake' : ℚ≥0)
    (hlookup : (s.stakes.insert id stake)[id']? = some stake') :
    (id' = id ∨ id' ∈ s.validators) ∧ 0 < stake' := by
  rw [getElem?_insert_eq] at hlookup
  split_ifs at hlookup with hid
  · rw [← Option.some.inj hlookup]
    exact ⟨Or.inl hid.symm, hpos⟩
  · obtain ⟨hmem, hpos'⟩ := h.staked id' stake' hlookup
    exact ⟨Or.inr hmem, hpos'⟩

theorem registered_step {s : ConsensusEngine} (h : s.Registered) {method : Method}
    (hsound : Sound s method) : (s.step method).Registered := by
  cases method with
  | setType ct => exact ⟨h.nodup, h.named, h.staked⟩
  | addValidator validatorId stake =>
    obtain ⟨hname, hnew, hpos⟩ := hsound
    refine ⟨?_, ?_, fun id stake' hlookup => ?_⟩
    · exact List.nodup_append_comm.mp (List.nodup_cons.mpr ⟨hnew, h.nodup⟩)
    · intro hmem
      rcases List.mem_append.mp hmem with hold | heq
      · exact h.named hold
      · exact hname (List.mem_singleton.mp heq).symm
    · obtain ⟨hmem, hpos'⟩ := h.insert_stake hpos id stake' hlookup
      refine ⟨List.mem_append.mpr ?_, hpos'⟩
      rcases hmem with heq | hold
      · exact Or.inr (List.mem_singleton.mpr heq)
      · exact Or.inl hold
  | removeValidator validatorId =>
    refine ⟨h.nodup.erase validatorId, fun hmem => h.named (List.mem_of_mem_erase hmem),
      fun id stake hlookup => ?_⟩
    rw [step, removeValidator, getElem?_erase_eq] at hlookup
    split_ifs at hlookup with hid
    obtain ⟨hmem, hpos⟩ := h.staked id stake hlookup
    exact ⟨(List.Nodup.mem_erase_iff h.nodup).mpr ⟨Ne.symm hid, hmem⟩, hpos⟩
  | updateStake validatorId newStake =>
    refine ⟨h.nodup, h.named, fun id stake hlookup => ?_⟩
    obtain ⟨hmem, hpos⟩ := h.insert_stake hsound.2 id stake hlookup
    refine ⟨hmem.elim ?_ (fun hold => hold), hpos⟩
    rintro rfl
    exact hsound.1
  | selectValidator roundRobinIndex draw chain =>
    rw [step, selectValidator_engine]
    exact ⟨h.nodup, h.named, h.staked⟩

theorem Registered.eligible {s : ConsensusEngine} (h : s.Registered) : s.Eligible := by
  intro hne
  have hentry : ∀ e ∈ s.stakes.toList, e.1 ∈ s.validators ∧ 0 < e.2 := fun e he =>
    h.staked e.1 e.2 (Std.TreeMap.mem_toList_iff_getElem?_eq_some.mp he)
  have hnamed : ∀ id ∈ s.validators, id ≠ [] := by
    rintro id hmem rfl
    exact h.named hmem
  refine ⟨fun _ => ⟨fun e hhead => ?_, fun e he _ => ?_⟩, fun _ => ?_⟩
  · exact (hentry e (List.mem_of_mem_head? hhead)).2
  · exact ⟨(hentry e he).1, hnamed e.1 (hentry e he).1⟩
  · split_ifs
    · exact hnamed _ (validatorAt_mem hne _)
    · exact fun hmem => h.named (List.mem_of_mem_take hmem)

/-- In every state of a sound run the selections are suitable. -/
theorem agrees_of_sound {ct : ConsensusType} {methods : List Method}
    (hsound : Along step Sound (create ct) methods) (n : Nat) :
    (run step (create ct) (methods.take n)).Agrees := by
  have hregistered : ∀ n, (run step (create ct) (methods.take n)).Registered := by
    rw [forall_run_take_iff]
    refine ⟨registered_create ct, ?_⟩
    exact hsound.imp_of_invariant (fun s method h => registered_step h)
      (fun s method h => registered_step h) (registered_create ct)
  exact (agrees_iff _).mpr (hregistered n).eligible

end ConsensusEngine

end Blackstone.Bank
