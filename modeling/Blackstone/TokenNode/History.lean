import Blackstone.TokenNode.ExactlyOnce

/-!
# What the history of the node says about its state

`pending_run`: the accepted transactions are the departed ones followed by those in the
pool. `balance_run`: the balance of every key is its initial balance with the credits, the
rewards and the debits of the history applied. `balance_of_spares` puts them together: when
the block miner spares the verified transactions and all workers are idle, the balances are
those of the verified departed transactions, each applied once.
-/

namespace Blackstone.TokenNode

open Balance RingBuffer Runs

variable {n : Nat}

/-! ## The pool -/

/-- The number of submissions among the events. -/
def submissions : List (CoreEvent n) → Nat
  | [] => 0
  | .submit _ :: events => submissions events + 1
  | .worker _ :: events => submissions events
  | .consensus _ _ :: events => submissions events
  | .reuse _ _ :: events => submissions events

/-- The pool holds what was accepted and has not departed. -/
def Pending (core : Core n) : Prop :=
  ∃ q, PoolRep core.pool q ∧ core.accepted = core.departed ++ q

/-- A pop moves the oldest pending transaction to the departed ones. -/
theorem Pending.pop {core : Core n} (h : Pending core) {tx : Transaction} {pool : TxPool}
    (hpop : txPoolPop core.pool = (some tx, pool)) :
    (∃ q, PoolRep pool q ∧ core.accepted = core.departed ++ [tx] ++ q) ∧
      pool.tail = core.pool.tail := by
  obtain ⟨q, hrep, haccepted⟩ := h
  obtain ⟨hhead, hrest, _, htail⟩ := hrep.pop
  rw [hpop] at hhead hrest htail
  exact ⟨⟨q.tail, hrest, history_pop haccepted hhead.symm⟩, htail⟩

theorem Pending.pop_none {core : Core n} (h : Pending core) {pool : TxPool}
    (hpop : txPoolPop core.pool = (none, pool)) :
    (∃ q, PoolRep pool q ∧ core.accepted = core.departed ++ q) ∧
      pool.tail = core.pool.tail := by
  obtain ⟨q, hrep, haccepted⟩ := h
  obtain ⟨hhead, hrest, _, htail⟩ := hrep.pop
  rw [hpop] at hhead hrest htail
  obtain rfl := List.head?_eq_none_iff.mp hhead.symm
  exact ⟨⟨[], hrest, haccepted⟩, htail⟩

theorem Pending.submit {core : Core n} (h : Pending core) (tx : Transaction)
    (hroom : core.pool.tail.toNat + 1 < 2 ^ 64) :
    Pending (submitStep core tx) ∧
      (submitStep core tx).pool.tail.toNat ≤ core.pool.tail.toNat + 1 := by
  obtain ⟨q, hrep, haccepted⟩ := h
  obtain ⟨_, hfifo, _, htail⟩ := poolStep_simulates hrep (.add tx) hroom
  refine ⟨?_, htail⟩
  by_cases hspace : q.length < core.pool.capacity.toNat
  · have hadd := (hrep.add hspace hroom tx).1
    rw [fifoStep, if_pos hspace] at hfifo
    refine ⟨q ++ [tx], hfifo, ?_⟩
    rw [submitStep, hadd, if_pos rfl, haccepted, List.append_assoc]
  · have hfull : txPoolAdd core.pool tx = (false, core.pool) := by
      rw [txPoolAdd, if_pos (hrep.counters.full_iff.mpr (by omega))]
    refine ⟨q, ?_, ?_⟩
    · rw [submitStep, hfull]
      exact hrep
    · rw [submitStep, hfull]
      exact haccepted

theorem Pending.worker {core : Core n} (h : Pending core) (i : Fin n) :
    Pending (workerStep core i) ∧ (workerStep core i).pool.tail = core.pool.tail := by
  have hmove := workerStep_move core i
  generalize workerStep core i = core' at hmove
  cases hmove with
  | starve hphase hpop => exact h.pop_none hpop
  | pop hphase hpop => exact h.pop hpop
  | reject => exact ⟨h, rfl⟩
  | debit => exact ⟨h, rfl⟩
  | credit => exact ⟨h, rfl⟩

theorem Pending.consensus {core : Core n} (h : Pending core) (miner : Miner)
    (now addr : UInt64) :
    Pending (consensusStep miner core now addr) ∧
      (consensusStep miner core now addr).pool.tail = core.pool.tail := by
  have hmove := consensusStep_move miner core now addr
  generalize consensusStep miner core now addr = core' at hmove
  cases hmove with
  | pop hphase hmay hpop => exact h.pop hpop
  | drained hphase hpop => exact h.pop_none hpop
  | wait => exact ⟨h, rfl⟩
  | start => exact ⟨h, rfl⟩
  | filled => exact ⟨h, rfl⟩
  | validate => exact ⟨h, rfl⟩
  | drop => exact ⟨h, rfl⟩
  | add => exact ⟨h, rfl⟩
  | reward => exact ⟨h, rfl⟩

/-- An event keeps the history and the room for the submissions that are left. -/
theorem Pending.step {core : Core n} (h : Pending core) (miner : Miner) (event : CoreEvent n)
    {events : List (CoreEvent n)}
    (hroom : core.pool.tail.toNat + submissions (event :: events) < 2 ^ 64) :
    Pending (coreStep miner core event) ∧
      (coreStep miner core event).pool.tail.toNat + submissions events < 2 ^ 64 := by
  cases event with
  | submit tx =>
    rw [submissions] at hroom
    obtain ⟨hnext, htail⟩ := h.submit tx (by omega)
    refine ⟨hnext, ?_⟩
    change (submitStep core tx).pool.tail.toNat + _ < _
    omega
  | worker i =>
    rw [submissions] at hroom
    obtain ⟨hnext, htail⟩ := h.worker i
    refine ⟨hnext, ?_⟩
    change (workerStep core i).pool.tail.toNat + _ < _
    rwa [htail]
  | consensus now addr =>
    rw [submissions] at hroom
    obtain ⟨hnext, htail⟩ := h.consensus miner now addr
    refine ⟨hnext, ?_⟩
    change (consensusStep miner core now addr).pool.tail.toNat + _ < _
    rwa [htail]
  | reuse i block =>
    rw [submissions] at hroom
    rw [coreStep, reuseStep]
    split <;> exact ⟨h, hroom⟩

/-- With fewer than `2^64` submissions, the accepted transactions are the departed ones
followed by those that are still in the pool. -/
theorem pending_run (miner : Miner) {core : Core n} (h : Pending core)
    (events : List (CoreEvent n))
    (hroom : core.pool.tail.toNat + submissions events < 2 ^ 64) :
    Pending (run (coreStep miner) core events) := by
  induction events generalizing core with
  | nil => exact h
  | cons event events ih =>
    obtain ⟨hnext, hleft⟩ := h.step miner event hroom
    exact ih hnext hleft

/-! ## The balances -/

/-- The sum, modulo `2^64`, of the amounts that a log holds for a key. -/
def tally {α : Type} (key : α → Key Address) (amount : α → UInt64) (k : Key Address) :
    List α → UInt64
  | [] => 0
  | x :: xs => (if key x = k then amount x else 0) + tally key amount k xs

section Tally

variable {α : Type} (key : α → Key Address) (amount : α → UInt64) (k : Key Address)

theorem tally_concat (xs : List α) (x : α) :
    tally key amount k (xs ++ [x]) =
      tally key amount k xs + if key x = k then amount x else 0 := by
  induction xs with
  | nil =>
    change _ + 0 = 0 + _
    rw [UInt64.add_zero, UInt64.zero_add]
  | cons y xs ih =>
    change _ + tally key amount k (xs ++ [x]) = _ + tally key amount k xs + _
    rw [ih, UInt64.add_assoc]

theorem tally_concat_ite (p : Prop) [Decidable p] (xs : List α) (x : α) :
    tally key amount k (if p then xs ++ [x] else xs) =
      tally key amount k xs + if key x = k ∧ p then amount x else 0 := by
  by_cases hp : p
  · simp only [hp, if_true, and_true, tally_concat]
  · simp only [hp, if_false, and_false, UInt64.add_zero]

theorem tally_perm {xs ys : List α} (h : xs.Perm ys) :
    tally key amount k xs = tally key amount k ys := by
  induction h with
  | nil => rfl
  | cons x _ ih =>
    change _ + tally key amount k _ = _ + tally key amount k _
    rw [ih]
  | swap x y xs =>
    change _ + (_ + tally key amount k xs) = _ + (_ + tally key amount k xs)
    rw [← UInt64.add_assoc, ← UInt64.add_assoc]
    congr 1
    exact UInt64.add_comm _ _
  | trans _ _ ih ih' => exact ih.trans ih'

end Tally

theorem balanceCacheGet_update {cache : BalanceCache} (h : CacheOk hashAddress cache)
    (a : Address) (t : UInt32) (delta : UInt64) (k : Key Address) :
    balanceCacheGet (balanceCacheUpdate cache a t delta) k.1 k.2 =
      balanceCacheGet cache k.1 k.2 + if (a, t) = k ∧ HasRoom cache (a, t) then delta else 0 :=
  h.cacheGet_update a t delta k

/-- The credits of a history for a key. -/
def received (core : Core n) (k : Key Address) : UInt64 :=
  tally (fun tx : Transaction => (tx.receiver, tx.tokenId)) Transaction.amount k core.credited

/-- The block rewards of a history for a key. -/
def minted (core : Core n) (k : Key Address) : UInt64 :=
  tally (fun block : Block => (block.miner, 0)) Block.reward k core.rewarded

/-- The debits of a history for a key. -/
def paid (core : Core n) (k : Key Address) : UInt64 :=
  tally (fun tx : Transaction => (tx.sender, tx.tokenId)) workerTotal k core.debited

/-- The table is in order, and its balances are the initial ones with the history applied. -/
def Accounted (cache : BalanceCache) (core : Core n) : Prop :=
  CacheOk hashAddress core.cache ∧ ∀ k : Key Address,
    balanceCacheGet core.cache k.1 k.2 =
      balanceCacheGet cache k.1 k.2 + received core k + minted core k - paid core k

theorem Accounted.worker {cache : BalanceCache} {core : Core n} (h : Accounted cache core)
    (i : Fin n) : Accounted cache (workerStep core i) := by
  obtain ⟨hok, hbalance⟩ := h
  have hmove := workerStep_move core i
  generalize workerStep core i = core' at hmove
  cases hmove with
  | starve => exact ⟨hok, hbalance⟩
  | pop => exact ⟨hok, hbalance⟩
  | reject => exact ⟨hok, hbalance⟩
  | @debit tx _ _ =>
    refine ⟨hok.update _ _ _, fun k => ?_⟩
    have hupdate := balanceCacheGet_update hok tx.sender tx.tokenId (-workerTotal tx) k
    have hbefore := hbalance k
    simp only [received, minted, paid, workerDebit, tally_concat_ite] at hbefore ⊢
    rw [hupdate, hbefore]
    split <;> grind
  | @credit tx _ =>
    refine ⟨hok.update _ _ _, fun k => ?_⟩
    have hupdate := balanceCacheGet_update hok tx.receiver tx.tokenId tx.amount k
    have hbefore := hbalance k
    simp only [received, minted, paid, workerCredit, tally_concat_ite] at hbefore ⊢
    rw [hupdate, hbefore]
    split <;> grind

theorem Accounted.consensus {cache : BalanceCache} {core : Core n} (h : Accounted cache core)
    (miner : Miner) (now addr : UInt64) :
    Accounted cache (consensusStep miner core now addr) := by
  obtain ⟨hok, hbalance⟩ := h
  have hmove := consensusStep_move miner core now addr
  generalize consensusStep miner core now addr = core' at hmove
  cases hmove with
  | @reward block _ =>
    refine ⟨hok.update _ _ _, fun k => ?_⟩
    have hupdate := balanceCacheGet_update hok block.miner 0 block.reward k
    have hbefore := hbalance k
    simp only [received, minted, paid, tally_concat_ite] at hbefore ⊢
    rw [hupdate, hbefore]
    split <;> grind
  | wait => exact ⟨hok, hbalance⟩
  | start => exact ⟨hok, hbalance⟩
  | pop => exact ⟨hok, hbalance⟩
  | drained => exact ⟨hok, hbalance⟩
  | filled => exact ⟨hok, hbalance⟩
  | validate => exact ⟨hok, hbalance⟩
  | drop => exact ⟨hok, hbalance⟩
  | add => exact ⟨hok, hbalance⟩

/-- In every run the balances are the initial ones with the history applied. -/
theorem balance_run (miner : Miner) (pool : TxPool) {cache : BalanceCache}
    (hok : CacheOk hashAddress cache) (chain : Blockchain) (events : List (CoreEvent n)) :
    Accounted cache (run (coreStep miner) (coreStart n pool cache chain) events) := by
  have hstart : Accounted cache (coreStart n pool cache chain) := by
    refine ⟨hok, fun k => ?_⟩
    change balanceCacheGet cache k.1 k.2 = balanceCacheGet cache k.1 k.2 + 0 + 0 - 0
    grind
  have hstep : ∀ (core : Core n) event, Accounted cache core → True →
      Accounted cache (coreStep miner core event) := by
    intro core event h _
    cases event with
    | submit tx => exact h
    | worker i => exact h.worker i
    | consensus now addr => exact h.consensus miner now addr
    | reuse i block =>
      rw [coreStep, reuseStep]
      split <;> exact h
  exact run_invariant hstep hstart (along_true _ _)

/-! ## Runs that spare the verified transactions -/

/-- Workers debit and credit verified transactions only. -/
structure VerifiedOnly (core : Core n) : Prop where
  debited : ∀ tx ∈ core.debited, txVerify tx = true
  credited : ∀ tx ∈ core.credited, txVerify tx = true
  workers : ∀ i tx, core.workers i = .debited tx → txVerify tx = true

theorem mem_concat_ite {p : Prop} [Decidable p] {xs : List Transaction} {x tx : Transaction}
    (h : tx ∈ if p then xs ++ [x] else xs) : tx ∈ xs ∨ tx = x := by
  split at h
  · rcases List.mem_append.mp h with hold | hnew
    · exact Or.inl hold
    · exact Or.inr (List.mem_singleton.mp hnew)
  · exact Or.inl h

theorem VerifiedOnly.worker {core : Core n} (h : VerifiedOnly core) (i : Fin n) :
    VerifiedOnly (workerStep core i) := by
  have hothers : ∀ {next : WorkerPhase} {j : Fin n} {tx : Transaction},
      Function.update core.workers i next j = .debited tx →
        next = .debited tx ∨ txVerify tx = true := by
    intro next j tx hphase
    by_cases hj : j = i
    · rw [hj, Function.update_self] at hphase
      exact Or.inl hphase
    · rw [Function.update_of_ne hj] at hphase
      exact Or.inr (h.workers j tx hphase)
  have hmove := workerStep_move core i
  generalize workerStep core i = core' at hmove
  cases hmove with
  | starve => exact ⟨h.debited, h.credited, h.workers⟩
  | pop =>
    refine ⟨h.debited, h.credited, fun j tx hphase => ?_⟩
    exact (hothers hphase).resolve_left (by simp)
  | reject =>
    refine ⟨h.debited, h.credited, fun j tx hphase => ?_⟩
    exact (hothers hphase).resolve_left (by simp)
  | @debit tx _ hverify =>
    refine ⟨fun tx' hmem => ?_, h.credited, fun j tx' hphase => ?_⟩
    · rcases mem_concat_ite hmem with hold | rfl
      · exact h.debited tx' hold
      · exact hverify
    · rcases hothers hphase with heq | hverify'
      · rw [← WorkerPhase.debited.inj heq]
        exact hverify
      · exact hverify'
  | @credit tx hphase =>
    refine ⟨h.debited, fun tx' hmem => ?_, fun j tx' hphase' => ?_⟩
    · rcases mem_concat_ite hmem with hold | rfl
      · exact h.credited tx' hold
      · exact h.workers i tx' hphase
    · exact (hothers hphase').resolve_left (by simp)

theorem verifiedOnly_run (miner : Miner) (pool : TxPool) (cache : BalanceCache)
    (chain : Blockchain) (events : List (CoreEvent n)) :
    VerifiedOnly (run (coreStep miner) (coreStart n pool cache chain) events) := by
  have hstart : VerifiedOnly (coreStart n pool cache chain) :=
    ⟨fun _ h => absurd h List.not_mem_nil, fun _ h => absurd h List.not_mem_nil,
      fun _ _ h => by cases h⟩
  have hstep : ∀ (core : Core n) event, VerifiedOnly core → True →
      VerifiedOnly (coreStep miner core event) := by
    intro core event h _
    cases event with
    | submit tx => exact ⟨h.debited, h.credited, h.workers⟩
    | worker i => exact h.worker i
    | consensus now addr =>
      change VerifiedOnly (consensusStep miner core now addr)
      have hmove := consensusStep_move miner core now addr
      generalize consensusStep miner core now addr = core' at hmove
      cases hmove <;> exact ⟨h.debited, h.credited, h.workers⟩
    | reuse i block =>
      rw [coreStep, reuseStep]
      split <;> exact ⟨h.debited, h.credited, h.workers⟩
  exact run_invariant hstep hstart (along_true _ _)

theorem perm_filter_of_count {xs ys : List Transaction}
    (hxs : ∀ tx ∈ xs, txVerify tx = true)
    (hcount : ∀ tx, txVerify tx = true → ys.count tx = xs.count tx) :
    xs.Perm (ys.filter txVerify) := by
  apply List.perm_iff_count.mpr
  intro tx
  by_cases hverify : txVerify tx = true
  · rw [List.count_filter hverify, hcount tx hverify]
  · have hfilter : tx ∉ ys.filter txVerify :=
      fun hmem => hverify (List.mem_filter.mp hmem).2
    rw [List.count_eq_zero_of_not_mem hfilter,
      List.count_eq_zero_of_not_mem (fun hmem => hverify (hxs tx hmem))]

/-- When the block miner spares the verified transactions, every update finds an entry and
all workers are idle, the balances are the initial ones with the rewards and with each
verified departed transaction applied once. -/
theorem balance_of_spares {miner : Miner} {pool : TxPool} {cache : BalanceCache}
    (hok : CacheOk hashAddress cache) {chain : Blockchain} {events : List (CoreEvent n)}
    {core : Core n} (hcore : run (coreStep miner) (coreStart n pool cache chain) events = core)
    (hspares : Along (coreStep miner) (Spares miner) (coreStart n pool cache chain) events)
    (hidle : ∀ i, core.workers i = .idle) (k : Key Address) :
    balanceCacheGet core.cache k.1 k.2 = balanceCacheGet cache k.1 k.2 +
      tally (fun tx : Transaction => (tx.receiver, tx.tokenId)) Transaction.amount k
        (core.departed.filter txVerify) + minted core k -
      tally (fun tx : Transaction => (tx.sender, tx.tokenId)) workerTotal k
        (core.departed.filter txVerify) := by
  have hstart : ExactlyOnce (coreStart n pool cache chain) := by
    intro tx _
    simp [coreStart]
  have honce := (exactlyOnce_of_run hstart events).mpr hspares
  have hverified := verifiedOnly_run miner pool cache chain events
  have hbalance := (balance_run miner pool hok chain events).2 k
  rw [hcore] at honce hverified hbalance
  have hdebited := perm_filter_of_count hverified.debited fun tx hverify => by
    have hcount := (honce tx hverify).1
    simp only [hidle, owedDebits_idle, Finset.sum_const_zero, Int.add_zero] at hcount
    exact_mod_cast hcount
  have hcredited := perm_filter_of_count hverified.credited fun tx hverify => by
    have hcount := (honce tx hverify).2
    simp only [hidle, owedCredits_idle, Finset.sum_const_zero, Int.add_zero] at hcount
    exact_mod_cast hcount
  rw [hbalance, received, paid, tally_perm _ _ _ hdebited, tally_perm _ _ _ hcredited]

end Blackstone.TokenNode
