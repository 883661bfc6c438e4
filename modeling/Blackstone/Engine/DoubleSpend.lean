import Mathlib.Algebra.Order.BigOperators.Group.Finset
import Mathlib.Data.Fintype.Option
import Blackstone.Engine.Threads

/-!
# Double spending

`verify_transaction` and the debit are separate critical sections, so a balance that covers
each of two transactions need not cover both. `pending` is what the threads have verified
and not yet debited; a state is `Covered` when every balance covers it.

`noDoubleSpend_iff`: a run can be cut at any point and continued with debits alone, in any
order, without a debit that its balance does not cover, if and only if every accepted
transaction is covered together with what is pending, and no credit wraps a balance below
what is pending. `twoSpends_overdraw` is a run of two workers that spends a balance twice.
-/

namespace Blackstone.Engine

open Balance Runs

variable {n : Nat}

/-- What a thread has verified and not yet debited from a key. -/
def owed (k : Key Address) : Option Job → Int
  | some ⟨tx, .verified⟩ => if (tx.sender, tx.tokenId) = k then (totalCost tx).toNat else 0
  | _ => 0

def pending (engine : P2pEngine n) (k : Key Address) : Int :=
  ∑ t, owed k (engine.jobs t)

def balanceOf (engine : P2pEngine n) (k : Key Address) : Int :=
  (balanceCacheGet engine.cache k.1 k.2).toNat

/-- The event is a debit. -/
def IsDebit (engine : P2pEngine n) (event : EngineEvent n) : Prop :=
  ∃ t tx, actingJob engine event = some (t, ⟨tx, .verified⟩)

/-- A debit is covered by the current balance of the sender. -/
def GoodDebit (engine : P2pEngine n) (event : EngineEvent n) : Prop :=
  ∀ t tx, actingJob engine event = some (t, ⟨tx, .verified⟩) →
    (totalCost tx).toNat ≤ balanceOf engine (tx.sender, tx.tokenId)

/-- Whatever the run has done, the verified transactions can be debited in any order. -/
def SafeSchedules (engine : P2pEngine n) (events : List (EngineEvent n)) : Prop :=
  ∀ pre post debits, events = pre ++ post →
    Along engineStep IsDebit (run engineStep engine pre) debits →
    Along engineStep GoodDebit engine (pre ++ debits)

/-- Adding to a balance leaves it at or above what is pending. -/
def CreditKeeps (engine : P2pEngine n) (k : Key Address) (amount : UInt64) : Prop :=
  HasRoom engine.cache k →
    balanceOf engine k + amount.toNat < 2 ^ 64 ∨
      pending engine k + 2 ^ 64 ≤ balanceOf engine k + amount.toNat

/-- An accepted transaction is covered together with what is pending, and a credit leaves
the pending transactions covered. -/
structure Reserved (engine : P2pEngine n) (event : EngineEvent n) : Prop where
  verify : ∀ t tx height, actingJob engine event = some (t, ⟨tx, .timed height⟩) →
    verifyTransaction tx engine.cache height = true →
    pending engine (tx.sender, tx.tokenId) + (totalCost tx).toNat ≤
      balanceOf engine (tx.sender, tx.tokenId)
  credit : ∀ t tx, actingJob engine event = some (t, ⟨tx, .debited⟩) →
    CreditKeeps engine (tx.receiver, tx.tokenId) tx.amount
  reward : ∀ found block, event = .miner found → engine.miner = .rewarding block →
    CreditKeeps engine (block.miner, 0) block.reward

/-- Every balance covers what is pending on it. -/
def Covered (engine : P2pEngine n) : Prop :=
  ∀ k, pending engine k ≤ balanceOf engine k

/-! ## What a step does to balances and pending debits -/

theorem owed_nonneg (k : Key Address) (job : Option Job) : 0 ≤ owed k job := by
  unfold owed
  split
  · split <;> omega
  · exact Int.le_refl 0

theorem pending_update (engine : P2pEngine n) (t : Thread n) (job : Option Job)
    (k : Key Address) :
    ∑ t', owed k (Function.update engine.jobs t job t') =
      pending engine k + (owed k job - owed k (engine.jobs t)) :=
  sum_update_phase engine.jobs t job (owed k)

theorem owed_le_pending (engine : P2pEngine n) (t : Thread n) (k : Key Address) :
    owed k (engine.jobs t) ≤ pending engine k :=
  Finset.single_le_sum (fun t' _ => owed_nonneg k (engine.jobs t')) (Finset.mem_univ t)

theorem actingJob_processing {engine : P2pEngine n} {txs : List Transaction}
    (hphase : engine.miner = .processing txs) (found : Bool) :
    actingJob engine (.miner found) = (engine.jobs none).map fun job => (none, job) := by
  simp only [actingJob, hphase]

theorem actingJob_other {engine : P2pEngine n} {phase : MinerPhase}
    (hphase : engine.miner = phase) (hne : ∀ txs, phase ≠ .processing txs) (found : Bool) :
    actingJob engine (.miner found) = none := by
  cases phase with
  | processing txs => exact absurd rfl (hne txs)
  | idle => simp only [actingJob, hphase]
  | collecting => simp only [actingJob, hphase]
  | returning => simp only [actingJob, hphase]
  | mining => simp only [actingJob, hphase]
  | rewarding => simp only [actingJob, hphase]

/-- Starting a job, or leaving one that is finished, changes no pending debit. -/
theorem pending_update_of_owed {engine : P2pEngine n} {t : Thread n} {job job' : Option Job}
    (hjob : engine.jobs t = job) (howed : ∀ k, owed k job' = owed k job) (k : Key Address) :
    ∑ t', owed k (Function.update engine.jobs t job' t') = pending engine k := by
  rw [pending_update, hjob, howed, sub_self, add_zero]

/-- A step that touches neither balances nor pending debits and pays no reward. -/
structure Quiet (engine : P2pEngine n) (event : EngineEvent n) (engine' : P2pEngine n) :
    Prop where
  acting : ∀ t job, actingJob engine event = some (t, job) →
    ∃ accepted, job.progress = .finished accepted
  reward : ∀ found block, event = .miner found → engine.miner ≠ .rewarding block
  cache_eq : engine'.cache = engine.cache
  pending_eq : ∀ k, pending engine' k = pending engine k

section Quiet

variable {engine engine' : P2pEngine n} {found : Bool}

theorem quiet_worker {i : Fin n} {job : Option Job} (hjob : engine.jobs (some i) = job)
    (hfinished : ∀ j ∈ job, ∃ accepted, j.progress = .finished accepted)
    (hsame : engine'.cache = engine.cache ∧ ∀ k, pending engine' k = pending engine k) :
    Quiet engine (.worker i) engine' := by
  refine ⟨?_, fun _ _ h => (by cases h), hsame.1, hsame.2⟩
  intro t j h
  rw [actingJob, hjob] at h
  obtain ⟨j', hj', heq⟩ := Option.map_eq_some_iff.mp h
  cases heq
  exact hfinished j hj'

/-- Outside `processing` and `rewarding` the mining thread has no job and pays nothing. -/
theorem quiet_miner {phase : MinerPhase} (hphase : engine.miner = phase)
    (hprocessing : ∀ txs, phase ≠ .processing txs)
    (hrewarding : ∀ block, phase ≠ .rewarding block)
    (hsame : engine'.cache = engine.cache ∧ ∀ k, pending engine' k = pending engine k) :
    Quiet engine (.miner found) engine' := by
  refine ⟨?_, fun _ block _ h => hrewarding block (hphase.symm.trans h), hsame.1, hsame.2⟩
  intro t job h
  rw [actingJob_other hphase hprocessing] at h
  cases h

theorem quiet_processing {txs : List Transaction} (hphase : engine.miner = .processing txs)
    {job : Option Job} (hjob : engine.jobs none = job)
    (hfinished : ∀ j ∈ job, ∃ accepted, j.progress = .finished accepted)
    (hsame : engine'.cache = engine.cache ∧ ∀ k, pending engine' k = pending engine k) :
    Quiet engine (.miner found) engine' := by
  refine ⟨?_, fun _ _ _ h => (by cases hphase.symm.trans h), hsame.1, hsame.2⟩
  intro t j h
  rw [actingJob_processing hphase, hjob] at h
  obtain ⟨j', hj', heq⟩ := Option.map_eq_some_iff.mp h
  cases heq
  exact hfinished j hj'

end Quiet

/-- A step of a worker is a step of its job, or quiet. -/
theorem workerStep_cases (engine : P2pEngine n) (i : Fin n) :
    (∃ job, engine.jobs (some i) = some job ∧ (∀ accepted, job.progress ≠ .finished accepted) ∧
      workerStep engine i = workStep engine (some i) job) ∨
    Quiet engine (.worker i) (workerStep engine i) := by
  have hmove := workerStep_move engine i
  generalize workerStep engine i = engine' at hmove
  cases hmove with
  | work hjob hopen => exact Or.inl ⟨_, hjob, hopen, rfl⟩
  | starve hjob =>
    right
    exact quiet_worker hjob (by simp) ⟨rfl, fun _ => rfl⟩
  | pop hjob =>
    right
    exact quiet_worker hjob (by simp) ⟨rfl, pending_update_of_owed hjob fun _ => rfl⟩
  | leave hjob =>
    right
    exact quiet_worker hjob (by simp) ⟨rfl, pending_update_of_owed hjob fun _ => rfl⟩
  | count hjob =>
    right
    exact quiet_worker hjob (by simp) ⟨rfl, pending_update_of_owed hjob fun _ => rfl⟩

/-- A step of the mining thread is a step of its job, a reward, or quiet. -/
theorem minerStep_cases (engine : P2pEngine n) (found : Bool) :
    (∃ txs job, engine.miner = .processing txs ∧ engine.jobs none = some job ∧
      (∀ accepted, job.progress ≠ .finished accepted) ∧
      minerStep engine found = workStep engine none job) ∨
    (∃ block, engine.miner = .rewarding block ∧
      minerStep engine found = { engine with
        cache := balanceCacheUpdate engine.cache block.miner 0 block.reward
        miner := .processing block.transactions }) ∨
    Quiet engine (.miner found) (minerStep engine found) := by
  have hmove := minerStep_move engine found
  generalize minerStep engine found = engine' at hmove
  cases hmove with
  | work hphase hjob hopen => exact Or.inl ⟨_, _, hphase, hjob, hopen, rfl⟩
  | reward hphase => exact Or.inr (Or.inl ⟨_, hphase, rfl⟩)
  | take hphase hjob =>
    right; right
    exact quiet_processing hphase hjob (by simp)
      ⟨rfl, pending_update_of_owed hjob fun _ => rfl⟩
  | leave hphase hjob =>
    right; right
    exact quiet_processing hphase hjob (by simp)
      ⟨rfl, pending_update_of_owed hjob fun _ => rfl⟩
  | done hphase hjob =>
    right; right
    exact quiet_processing hphase hjob (by simp) ⟨rfl, fun _ => rfl⟩
  | wait hphase =>
    right; right
    exact quiet_miner hphase (by simp) (by simp) ⟨rfl, fun _ => rfl⟩
  | start hphase =>
    right; right
    exact quiet_miner hphase (by simp) (by simp) ⟨rfl, fun _ => rfl⟩
  | pop hphase =>
    right; right
    exact quiet_miner hphase (by simp) (by simp) ⟨rfl, fun _ => rfl⟩
  | drained hphase =>
    right; right
    exact quiet_miner hphase (by simp) (by simp) ⟨rfl, fun _ => rfl⟩
  | filled hphase =>
    right; right
    exact quiet_miner hphase (by simp) (by simp) ⟨rfl, fun _ => rfl⟩
  | giveBack hphase =>
    right; right
    exact quiet_miner hphase (by simp) (by simp) ⟨rfl, fun _ => rfl⟩
  | abandon hphase =>
    right; right
    exact quiet_miner hphase (by simp) (by simp) ⟨rfl, fun _ => rfl⟩
  | addBlock hphase =>
    right; right
    exact quiet_miner hphase (by simp) (by simp) ⟨rfl, fun _ => rfl⟩

/-- The events that take a step of a job, pay a reward, or are quiet. -/
theorem engineStep_cases (engine : P2pEngine n) (event : EngineEvent n) :
    (∃ t job, actingJob engine event = some (t, job) ∧ engine.jobs t = some job ∧
      (∀ accepted, job.progress ≠ .finished accepted) ∧
      (∀ found block, event = .miner found → engine.miner ≠ .rewarding block) ∧
      engineStep engine event = workStep engine t job) ∨
    (∃ found block, event = .miner found ∧ engine.miner = .rewarding block ∧
      actingJob engine event = none ∧
      engineStep engine event = { engine with
        cache := balanceCacheUpdate engine.cache block.miner 0 block.reward
        miner := .processing block.transactions }) ∨
    Quiet engine event (engineStep engine event) := by
  cases event with
  | add tx =>
    exact Or.inr (Or.inr ⟨fun _ _ h => (by cases h), fun _ _ h => (by cases h), rfl,
      fun _ => rfl⟩)
  | worker i =>
    rcases workerStep_cases engine i with ⟨job, hjob, hopen, hstep⟩ | hquiet
    · refine Or.inl ⟨some i, job, ?_, hjob, hopen, fun _ _ h => (by cases h), hstep⟩
      rw [actingJob, hjob]
      rfl
    · exact Or.inr (Or.inr hquiet)
  | miner found =>
    rcases minerStep_cases engine found with
      ⟨txs, job, hphase, hjob, hopen, hstep⟩ | ⟨block, hphase, hstep⟩ | hquiet
    · refine Or.inl ⟨none, job, ?_, hjob, hopen, fun _ _ _ h => ?_, hstep⟩
      · rw [actingJob_processing hphase, hjob]
        rfl
      · cases hphase.symm.trans h
    · exact Or.inr (Or.inl ⟨found, block, rfl, hphase,
        actingJob_other hphase (by simp) found, hstep⟩)
    · exact Or.inr (Or.inr hquiet)

/-- The part of a job step that concerns balances and pending debits. -/
theorem pending_workStep (engine : P2pEngine n) (t : Thread n) (job : Job) (k : Key Address) :
    pending (workStep engine t job) k = pending engine k +
      (owed k (some (jobStep engine.cache engine.chain job).1) - owed k (engine.jobs t)) :=
  pending_update engine t _ k

/-- A credit keeps a covered state covered exactly when it keeps its own key covered. -/
theorem covered_credit_iff {engine engine' : P2pEngine n} (hcache : CacheOk hashKey engine.cache)
    (hcovered : Covered engine) {a : Address} {t : UInt32} {amount : UInt64}
    (hupdate : engine'.cache = balanceCacheUpdate engine.cache a t amount)
    (hpending : ∀ k, pending engine' k = pending engine k) :
    Covered engine' ↔ CreditKeeps engine (a, t) amount := by
  have hbalance : ∀ k, balanceOf engine' k = if (a, t) = k ∧ HasRoom engine.cache (a, t) then
      (balanceOf engine k + amount.toNat) % 2 ^ 64 else balanceOf engine k := by
    intro k
    have hget : balanceCacheGet engine'.cache k.1 k.2 = balanceCacheGet engine.cache k.1 k.2 +
        if (a, t) = k ∧ HasRoom engine.cache (a, t) then amount else 0 := by
      rw [hupdate]
      exact hcache.cacheGet_update a t amount k
    unfold balanceOf
    rw [hget]
    split
    · rw [UInt64.toNat_add]
      omega
    · rw [UInt64.add_zero]
  have hnonneg : 0 ≤ balanceOf engine (a, t) := Int.natCast_nonneg _
  have hword : balanceOf engine (a, t) < 2 ^ 64 := by
    have := (balanceCacheGet engine.cache a t).toNat_lt
    unfold balanceOf
    dsimp only
    omega
  have hamount := amount.toNat_lt
  have hkey := hcovered (a, t)
  constructor
  · intro h hroom
    have hafter := h (a, t)
    rw [hpending, hbalance, if_pos ⟨rfl, hroom⟩] at hafter
    omega
  · intro h k
    rw [hpending, hbalance]
    by_cases hself : (a, t) = k ∧ HasRoom engine.cache (a, t)
    · obtain ⟨rfl, hroom⟩ := hself
      rw [if_pos ⟨rfl, hroom⟩]
      have hkeeps := h hroom
      omega
    · rw [if_neg hself]
      exact hcovered k

/-- A covered debit takes the same amount from the balance and from what is pending. -/
theorem debit_spec {engine : P2pEngine n} (hcache : CacheOk hashKey engine.cache)
    {t : Thread n} {tx : Transaction} (hjob : engine.jobs t = some ⟨tx, .verified⟩)
    (hgood : (totalCost tx).toNat ≤ balanceOf engine (tx.sender, tx.tokenId))
    (k : Key Address) :
    balanceOf (workStep engine t ⟨tx, .verified⟩) k =
        balanceOf engine k - owed k (engine.jobs t) ∧
      pending (workStep engine t ⟨tx, .verified⟩) k =
        pending engine k - owed k (engine.jobs t) := by
  constructor
  · rw [hjob]
    have hle : (totalCost tx).toNat ≤
        (cacheGet hashKey engine.cache tx.sender tx.tokenId).toNat := by
      unfold balanceOf at hgood
      exact_mod_cast hgood
    by_cases hkey : (tx.sender, tx.tokenId) = k
    · subst hkey
      have hself := hcache.toNat_debit hle
      simp only [owed, if_true]
      change ((cacheGet hashKey (cacheUpdate hashKey engine.cache tx.sender tx.tokenId
        (-totalCost tx)) tx.sender tx.tokenId).toNat : Int) =
          (cacheGet hashKey engine.cache tx.sender tx.tokenId).toNat - (totalCost tx).toNat
      omega
    · have hframe := hcache.cacheGet_update_of_ne (fun heq => hkey heq.symm) (-totalCost tx)
      simp only [owed, if_neg hkey, Int.sub_zero]
      exact congrArg (fun b : UInt64 => (b.toNat : Int)) hframe
  · rw [pending_workStep]
    simp only [jobStep, owed]
    omega

theorem covered_timed_iff {engine : P2pEngine n} (hcovered : Covered engine) {t : Thread n}
    {tx : Transaction} {height : UInt32} (hjob : engine.jobs t = some ⟨tx, .timed height⟩) :
    Covered (workStep engine t ⟨tx, .timed height⟩) ↔
      (verifyTransaction tx engine.cache height = true →
        pending engine (tx.sender, tx.tokenId) + (totalCost tx).toNat ≤
          balanceOf engine (tx.sender, tx.tokenId)) := by
  have hbalance : ∀ k, balanceOf (workStep engine t ⟨tx, .timed height⟩) k =
      balanceOf engine k := by
    intro k
    simp only [balanceOf, workStep, jobStep]
    split <;> rfl
  have hpending : ∀ k, pending (workStep engine t ⟨tx, .timed height⟩) k =
      pending engine k + if verifyTransaction tx engine.cache height = true ∧
        (tx.sender, tx.tokenId) = k then ((totalCost tx).toNat : Int) else 0 := by
    intro k
    rw [pending_workStep, hjob]
    by_cases hverify : verifyTransaction tx engine.cache height = true
    · simp only [jobStep, hverify, if_true, owed, true_and, Int.sub_zero]
    · simp only [jobStep, hverify, if_false, owed, false_and, Int.sub_zero, Bool.false_eq_true]
  constructor
  · intro h hverify
    have hkey := h (tx.sender, tx.tokenId)
    rwa [hpending, hbalance, if_pos ⟨hverify, rfl⟩] at hkey
  · intro h k
    rw [hpending, hbalance]
    by_cases hnew : verifyTransaction tx engine.cache height = true ∧
        (tx.sender, tx.tokenId) = k
    · rw [if_pos hnew, ← hnew.2]
      exact h hnew.1
    · rw [if_neg hnew, Int.add_zero]
      exact hcovered k

/-- In a covered state a debit is covered, and so is the state after it. -/
theorem covered_debit {engine : P2pEngine n} (hcache : CacheOk hashKey engine.cache)
    (hcovered : Covered engine) {t : Thread n} {tx : Transaction}
    (hjob : engine.jobs t = some ⟨tx, .verified⟩) :
    (totalCost tx).toNat ≤ balanceOf engine (tx.sender, tx.tokenId) ∧
      Covered (workStep engine t ⟨tx, .verified⟩) := by
  have hgood : (totalCost tx).toNat ≤ balanceOf engine (tx.sender, tx.tokenId) := by
    have howed := owed_le_pending engine t (tx.sender, tx.tokenId)
    rw [hjob, owed, if_pos rfl] at howed
    exact howed.trans (hcovered _)
  refine ⟨hgood, fun k => ?_⟩
  obtain ⟨hbalance, hpending⟩ := debit_spec hcache hjob hgood k
  have hkey := hcovered k
  rw [hbalance, hpending]
  omega

/-! ## The condition on a step -/

section Acting

variable {engine : P2pEngine n} {event : EngineEvent n} {t : Thread n} {tx : Transaction}
  {progress : Progress} (hact : actingJob engine event = some (t, ⟨tx, progress⟩))
include hact

theorem job_of_acting {t' : Thread n} {job : Job}
    (h : actingJob engine event = some (t', job)) : job = ⟨tx, progress⟩ :=
  congrArg Prod.snd (Option.some.inj (h.symm.trans hact))

theorem reserved_iff_of_acting
    (hreward : ∀ found block, event = .miner found → engine.miner ≠ .rewarding block) :
    Reserved engine event ↔
      (∀ height, progress = .timed height → verifyTransaction tx engine.cache height = true →
        pending engine (tx.sender, tx.tokenId) + (totalCost tx).toNat ≤
          balanceOf engine (tx.sender, tx.tokenId)) ∧
      (progress = .debited → CreditKeeps engine (tx.receiver, tx.tokenId) tx.amount) := by
  constructor
  · intro h
    constructor
    · intro height hprogress
      rw [hprogress] at hact
      exact h.verify t tx height hact
    · intro hprogress
      rw [hprogress] at hact
      exact h.credit t tx hact
  · intro ⟨hverify, hcredit⟩
    refine ⟨fun t' tx' height h => ?_, fun t' tx' h => ?_, fun found block h h' => ?_⟩
    · obtain ⟨rfl, hprogress⟩ := Job.mk.inj (job_of_acting hact h)
      exact hverify height hprogress.symm
    · obtain ⟨rfl, hprogress⟩ := Job.mk.inj (job_of_acting hact h)
      exact hcredit hprogress.symm
    · exact absurd h' (hreward found block h)

theorem goodDebit_iff_of_acting : GoodDebit engine event ↔
    (progress = .verified → (totalCost tx).toNat ≤ balanceOf engine (tx.sender, tx.tokenId)) := by
  constructor
  · intro h hprogress
    rw [hprogress] at hact
    exact h t tx hact
  · intro h t' tx' hact'
    obtain ⟨rfl, hprogress⟩ := Job.mk.inj (job_of_acting hact hact')
    exact h hprogress.symm

end Acting

/-- From a covered state, a step of a job leads to a covered state exactly when it meets the
condition; and its debit is good. -/
theorem covered_work_iff {engine : P2pEngine n} (hcache : CacheOk hashKey engine.cache)
    (hcovered : Covered engine) {event : EngineEvent n} {t : Thread n} {job : Job}
    (hact : actingJob engine event = some (t, job)) (hjob : engine.jobs t = some job)
    (hopen : ∀ accepted, job.progress ≠ .finished accepted)
    (hreward : ∀ found block, event = .miner found → engine.miner ≠ .rewarding block) :
    (Covered (workStep engine t job) ↔ Reserved engine event) ∧ GoodDebit engine event := by
  obtain ⟨tx, progress⟩ := job
  rw [reserved_iff_of_acting hact hreward, goodDebit_iff_of_acting hact]
  cases progress with
  | started =>
    refine ⟨iff_of_true (fun k => ?_) ⟨fun _ h => (by cases h), fun h => (by cases h)⟩,
      fun h => (by cases h)⟩
    have hkey := hcovered k
    rw [pending_workStep, hjob]
    simp only [jobStep, owed]
    change _ ≤ balanceOf engine k
    omega
  | timed height =>
    refine ⟨?_, fun h => (by cases h)⟩
    rw [covered_timed_iff hcovered hjob]
    constructor
    · intro h
      refine ⟨fun height' hprogress => ?_, fun h => (by cases h)⟩
      rw [← Progress.timed.inj hprogress]
      exact h
    · intro h
      exact h.1 height rfl
  | verified =>
    obtain ⟨hgood, hnext⟩ := covered_debit hcache hcovered hjob
    exact ⟨iff_of_true hnext ⟨fun _ h => (by cases h), fun h => (by cases h)⟩, fun _ => hgood⟩
  | debited =>
    refine ⟨?_, fun h => (by cases h)⟩
    have hpending : ∀ k, pending (workStep engine t ⟨tx, .debited⟩) k = pending engine k := by
      intro k
      rw [pending_workStep, hjob]
      simp only [jobStep, owed]
      omega
    have hupdate : (workStep engine t ⟨tx, .debited⟩).cache =
        balanceCacheUpdate engine.cache tx.receiver tx.tokenId tx.amount := rfl
    rw [covered_credit_iff hcache hcovered hupdate hpending]
    constructor
    · intro hkeeps
      exact ⟨fun _ h => (by cases h), fun _ => hkeeps⟩
    · intro h
      exact h.2 rfl
  | finished accepted => exact absurd rfl (hopen accepted)

/-- From a covered state, a step leads to a covered state exactly when it meets the
condition; and its debit is good. -/
theorem covered_step_iff {engine : P2pEngine n} (hcache : CacheOk hashKey engine.cache)
    (hcovered : Covered engine) (event : EngineEvent n) :
    (Covered (engineStep engine event) ↔ Reserved engine event) ∧ GoodDebit engine event := by
  rcases engineStep_cases engine event with ⟨t, job, hact, hjob, hopen, hreward, hstep⟩ |
      ⟨found, block, hevent, hphase, hact, hstep⟩ | ⟨hact, hreward, hsame, hpending⟩
  · rw [hstep]
    exact covered_work_iff hcache hcovered hact hjob hopen hreward
  · have hupdate : (engineStep engine event).cache =
        balanceCacheUpdate engine.cache block.miner 0 block.reward := by rw [hstep]
    have hpending : ∀ k, pending (engineStep engine event) k = pending engine k := by
      intro k
      rw [hstep]
      rfl
    refine ⟨?_, fun t tx h => (by cases hact.symm.trans h)⟩
    rw [covered_credit_iff hcache hcovered hupdate hpending]
    constructor
    · intro hkeeps
      refine ⟨fun t tx height h => ?_, fun t tx h => ?_, fun found' block' _ h => ?_⟩
      · cases hact.symm.trans h
      · cases hact.symm.trans h
      · cases hphase.symm.trans h
        exact hkeeps
    · intro h
      exact h.reward found block hevent hphase
  · have hnone : ∀ t tx progress, actingJob engine event = some (t, ⟨tx, progress⟩) →
        ∃ accepted, progress = .finished accepted := fun t tx progress h => hact t _ h
    have hafter : Covered (engineStep engine event) := by
      intro k
      rw [hpending, balanceOf, hsame]
      exact hcovered k
    refine ⟨iff_of_true hafter ⟨fun t tx height h => ?_, fun t tx h => ?_,
      fun found block h h' => ?_⟩, fun t tx h => ?_⟩
    · obtain ⟨_, hfinished⟩ := hnone t tx _ h
      cases hfinished
    · obtain ⟨_, hfinished⟩ := hnone t tx _ h
      cases hfinished
    · exact absurd h' (hreward found block h)
    · obtain ⟨_, hfinished⟩ := hnone t tx _ h
      cases hfinished

/-! ## Uncovered states -/

/-- The event in which a thread debits. -/
def debitEvent : Thread n → EngineEvent n
  | some i => .worker i
  | none => .miner false

theorem actingJob_debitEvent {engine : P2pEngine n} (h : EngineOk engine) {t : Thread n}
    {job : Job} (hjob : engine.jobs t = some job) :
    actingJob engine (debitEvent t) = some (t, job) := by
  cases t with
  | some i =>
    rw [debitEvent, actingJob, hjob]
    rfl
  | none =>
    obtain ⟨txs, hphase⟩ := h.miner job hjob
    rw [debitEvent, actingJob_processing hphase, hjob]
    rfl

theorem engineStep_debitEvent {engine : P2pEngine n} (h : EngineOk engine) {t : Thread n}
    {tx : Transaction} (hjob : engine.jobs t = some ⟨tx, .verified⟩) :
    engineStep engine (debitEvent t) = workStep engine t ⟨tx, .verified⟩ := by
  cases t with
  | some i => simp only [debitEvent, engineStep, workerStep, hjob]
  | none =>
    obtain ⟨txs, hphase⟩ := h.miner _ hjob
    simp only [debitEvent, engineStep, minerStep, hphase, hjob]

/-- What is pending comes from a thread with a positive verified cost. -/
theorem exists_verified {engine : P2pEngine n} {k : Key Address} (h : 0 < pending engine k) :
    ∃ t tx, engine.jobs t = some ⟨tx, .verified⟩ ∧ 0 < owed k (engine.jobs t) := by
  have hex : ∃ t, 0 < owed k (engine.jobs t) := by
    by_contra hno
    have hle : pending engine k ≤ 0 :=
      Finset.sum_nonpos fun t _ => Int.not_lt.mp fun hpos => hno ⟨t, hpos⟩
    omega
  obtain ⟨t, hpos⟩ := hex
  have hjob : ∃ tx, engine.jobs t = some ⟨tx, .verified⟩ := by
    unfold owed at hpos
    split at hpos
    · rename_i tx hjob
      exact ⟨tx, hjob⟩
    · exact absurd hpos (Int.lt_irrefl 0)
  obtain ⟨tx, hjob⟩ := hjob
  exact ⟨t, tx, hjob, hpos⟩

/-- When a balance does not cover what is pending on it, debits alone lead to a bad one. -/
theorem exists_badDebit {engine : P2pEngine n} (h : EngineOk engine) {k : Key Address}
    (hover : balanceOf engine k < pending engine k) :
    ∃ debits, Along engineStep IsDebit engine debits ∧
      ¬ Along engineStep GoodDebit engine debits := by
  -- the pending amount decreases with every good debit
  obtain ⟨m, hm⟩ : ∃ m : Nat, pending engine k ≤ m :=
    ⟨(pending engine k).toNat, Int.self_le_toNat _⟩
  induction m using Nat.strongRecOn generalizing engine with
  | ind m ih =>
    have hnonneg : 0 ≤ balanceOf engine k := Int.natCast_nonneg _
    obtain ⟨t, tx, hjob, hpos⟩ := exists_verified (show 0 < pending engine k by omega)
    have hact := actingJob_debitEvent h hjob
    have hdebit : IsDebit engine (debitEvent t) := ⟨t, tx, hact⟩
    by_cases hgood : (totalCost tx).toNat ≤ balanceOf engine (tx.sender, tx.tokenId)
    · obtain ⟨hbalance, hpending⟩ := debit_spec h.cache hjob hgood k
      have hnext := h.step (debitEvent t)
      rw [engineStep_debitEvent h hjob] at hnext
      have hlower : pending (workStep engine t ⟨tx, .verified⟩) k < m := by omega
      obtain ⟨debits, hdebits, hbad⟩ := ih
        (pending (workStep engine t ⟨tx, .verified⟩) k).toNat (by omega) hnext (by omega)
        (Int.self_le_toNat _)
      refine ⟨debitEvent t :: debits, ?_, fun hall => ?_⟩
      · rw [Along, engineStep_debitEvent h hjob]
        exact ⟨hdebit, hdebits⟩
      · rw [Along, engineStep_debitEvent h hjob] at hall
        exact hbad hall.2
    · exact ⟨[debitEvent t], ⟨hdebit, trivial⟩, fun hall => hgood (hall.1 t tx hact)⟩

/-! ## Results -/

theorem covered_start (n : Nat) (pool : TxPool) (cache : BalanceCache) (chain : Blockchain) :
    Covered (engineStart n pool cache chain) := by
  intro k
  have hzero : pending (engineStart n pool cache chain) k = 0 :=
    Finset.sum_eq_zero fun _ _ => rfl
  rw [hzero]
  exact Int.natCast_nonneg _

/-- A debit meets the condition. -/
theorem reserved_of_isDebit {engine : P2pEngine n} {event : EngineEvent n}
    (h : IsDebit engine event) : Reserved engine event := by
  obtain ⟨t, tx, hact⟩ := h
  refine ⟨fun t' tx' height hact' => ?_, fun t' tx' hact' => ?_,
    fun found block hevent hphase => ?_⟩
  · cases hact.symm.trans hact'
  · cases hact.symm.trans hact'
  · rw [hevent, actingJob_other hphase (by simp)] at hact
    cases hact

/-- From a covered state, the schedules that follow a run are safe exactly when every step
of the run meets the condition. -/
theorem safeSchedules_iff {engine : P2pEngine n} (hok : EngineOk engine)
    (hcovered : Covered engine) (events : List (EngineEvent n)) :
    SafeSchedules engine events ↔ Along engineStep Reserved engine events := by
  have hstep : ∀ (e : P2pEngine n) event, EngineOk e ∧ Covered e → Reserved e event →
      EngineOk (engineStep e event) ∧ Covered (engineStep e event) := by
    intro e event hinv hreserved
    exact ⟨hinv.1.step event, (covered_step_iff hinv.1.cache hinv.2 event).1.mpr hreserved⟩
  have hgood : ∀ (e : P2pEngine n) event, EngineOk e ∧ Covered e → Reserved e event →
      GoodDebit e event :=
    fun e event hinv _ => (covered_step_iff hinv.1.cache hinv.2 event).2
  constructor
  · intro hsafe
    induction events generalizing engine with
    | nil => trivial
    | cons event events ih =>
      have hreserved : Reserved engine event := by
        rw [← (covered_step_iff hok.cache hcovered event).1]
        intro k
        by_contra hover
        obtain ⟨debits, hdebits, hbad⟩ := exists_badDebit (hok.step event) (Int.not_le.mp hover)
        have hall := hsafe [event] events debits rfl hdebits
        exact hbad (along_append.mp hall).2
      obtain ⟨hok', hcovered'⟩ := hstep engine event ⟨hok, hcovered⟩ hreserved
      refine ⟨hreserved, ih hok' hcovered' fun pre post debits hsplit hdebits => ?_⟩
      have hall := hsafe (event :: pre) post debits (by rw [hsplit, List.cons_append]) hdebits
      exact hall.2
  · intro halong pre post debits hsplit hdebits
    rw [hsplit, along_append] at halong
    rw [along_append]
    have hinv := run_invariant hstep ⟨hok, hcovered⟩ halong.1
    refine ⟨Along.imp_of_invariant hstep hgood ⟨hok, hcovered⟩ halong.1, ?_⟩
    have hreserved : Along engineStep Reserved (run engineStep engine pre) debits :=
      Along.imp (fun _ _ h => reserved_of_isDebit h) hdebits
    exact Along.imp_of_invariant hstep hgood hinv hreserved

/-- In a run from the start, no debit overdraws its sender, also when the run is cut at any
point and only debits follow, exactly when every accepted transaction was covered together
with what was pending and every credit kept the pending transactions covered. -/
theorem noDoubleSpend_iff (n : Nat) (pool : TxPool) (cache : BalanceCache)
    (hcache : CacheOk hashKey cache) (chain : Blockchain) (events : List (EngineEvent n)) :
    SafeSchedules (engineStart n pool cache chain) events ↔
      Along engineStep Reserved (engineStart n pool cache chain) events :=
  safeSchedules_iff (engineOk_start n pool hcache chain) (covered_start n pool cache chain) events

/-! ## Two workers and one balance -/

/-- A transfer of 800 without fee or gas. -/
def spend (receiver : UInt8) : Transaction where
  sender := Address.zero
  receiver := ⟨Vector.replicate 64 receiver⟩
  amount := 800
  tokenId := 0
  fee := 0
  gasPrice := 0
  gasLimit := 0
  deadline := 0

/-- The sender owns 1000. -/
def spenderCache : BalanceCache := balanceCacheUpdate (balanceCacheCreate 4) Address.zero 0 1000

theorem spenderCache_ok : CacheOk hashKey spenderCache := by
  have hcreate : CacheOk hashKey (balanceCacheCreate 4) :=
    cacheOk_create hashKey Address.zero (by decide)
  exact hcreate.update Address.zero 0 1000

/-- Two workers and an empty pool. -/
def spenderStart : P2pEngine 2 :=
  engineStart 2 (transactionPoolCreate (fun _ => spend 1) 4) spenderCache blockchainCreate

theorem spenderStart_safe_iff :
    SafeSchedules spenderStart [.add (spend 1), .worker 0, .worker 0, .worker 0, .worker 0] ↔
      Along engineStep Reserved spenderStart
        [.add (spend 1), .worker 0, .worker 0, .worker 0, .worker 0] :=
  noDoubleSpend_iff 2 _ spenderCache spenderCache_ok blockchainCreate _

/-- Both workers verify their transfer before either debits. -/
def twoSpends : List (EngineEvent 2) :=
  [.add (spend 1), .add (spend 2), .worker 0, .worker 1, .worker 0, .worker 1, .worker 0,
    .worker 1, .worker 0]

/-- The second debit finds 200 where it takes 800, and the balance wraps. -/
theorem twoSpends_overdraw :
    FitsWord (spend 1) ∧ FitsWord (spend 2) ∧
      ¬ Along engineStep GoodDebit spenderStart (twoSpends ++ [.worker 1]) ∧
      balanceOf (run engineStep spenderStart (twoSpends ++ [.worker 1])) (Address.zero, 0) =
        2 ^ 64 - 600 := by
  refine ⟨⟨by decide, by decide⟩, ⟨by decide, by decide⟩, fun halong => ?_, by decide +kernel⟩
  have hlast := (along_append.mp halong).2.1
  have hact : actingJob (run engineStep spenderStart twoSpends) (.worker 1) =
      some (some 1, ⟨spend 2, .verified⟩) := by
    decide +kernel
  have hcovered := hlast (some 1) (spend 2) hact
  revert hcovered
  decide +kernel

end Blackstone.Engine
