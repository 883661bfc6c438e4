import Blackstone.Library.OrderedMap
import Blackstone.Library.Runs

/-!
# The timer manager

`TimerManager` of `timer.cpp`. The loop collects the timers that are due, and for each of them
fetches the callback, runs it and sets the next time or clears the timer. It takes the mutex for
each of these steps anew, so timers are set and cleared in between, also by the callbacks.

A fetch sees the table as it is then, and an id is used once as long as the counter does not
wrap. So the callback of a timeout runs at most once, and a timer that was cleared is not fetched
(`lawful_of_few`).

The clock counts nanoseconds, the intervals milliseconds.
-/

namespace Blackstone.Bank

open OrderedMap Runs

variable {C : Type}

/-- `TimerInfo`; the callback can be an empty function. -/
structure TimerInfo (C : Type) where
  callback : Option C
  nextRun : ℤ
  interval : ℤ
  repeating : Bool
  active : Bool

/-- `TimerManager`. -/
structure TimerManager (C : Type) where
  timers : Std.TreeMap Int32 (TimerInfo C)
  nextId : Int32

/-- Where `loop` is, with the ids that are left of `toExecute`. -/
inductive LoopPhase (C : Type) where
  | collecting
  | executing (toExecute : List Int32)
  | fetched (id : Int32) (cb : Option C) (repeating : Bool) (interval : ℤ) (rest : List Int32)
  | called (id : Int32) (repeating : Bool) (interval : ℤ) (rest : List Int32)

namespace TimerManager

/-- The constructor. -/
def create : TimerManager C where
  timers := ∅
  nextId := 1

/-- `TimerManager::setTimeout` and `TimerManager::setInterval`, with the id that they return. -/
def setTimer (s : TimerManager C) (now : ℤ) (callback : Option C) (ms : Int32)
    (repeating : Bool) : Int32 × TimerManager C :=
  let id := s.nextId
  let info : TimerInfo C := ⟨callback, now + ms.toInt * 1000000, ms.toInt, repeating, true⟩
  (id,
    { s with
      timers := s.timers.insert id info
      nextId := id + 1 })

/-- `TimerManager::setTimeout`. -/
def setTimeout (s : TimerManager C) (now : ℤ) (callback : Option C) (delayMs : Int32) :
    Int32 × TimerManager C := s.setTimer now callback delayMs false

/-- `TimerManager::setInterval`. -/
def setInterval (s : TimerManager C) (now : ℤ) (callback : Option C) (intervalMs : Int32) :
    Int32 × TimerManager C := s.setTimer now callback intervalMs true

/-- `TimerManager::clearTimer`. -/
def clearTimer (s : TimerManager C) (timerId : Int32) : Bool × TimerManager C :=
  match s.timers[timerId]? with
  | none => (false, s)
  | some _ => (true, { s with timers := s.timers.erase timerId })

/-- `TimerManager::clearAll`. -/
def clearAll (s : TimerManager C) : TimerManager C := { s with timers := ∅ }

/-- The loop over the timers that collects those that are due. -/
def collect (s : TimerManager C) (now : ℤ) : List Int32 :=
  (s.timers.toList.filter (fun e => e.2.active && decide (e.2.nextRun ≤ now))).map Prod.fst

/-- The timer under an id if it is active. -/
def find (s : TimerManager C) (id : Int32) : Option (TimerInfo C) :=
  s.timers[id]?.filter TimerInfo.active

/-- The next run of a repeating timer that has not been cleared. -/
def reschedule (s : TimerManager C) (id : Int32) (nextRun : ℤ) : TimerManager C :=
  match s.find id with
  | none => s
  | some info => { s with timers := s.timers.insert id { info with nextRun := nextRun } }

end TimerManager

/-- A manager with its loop and the ids of the timers that were set, of those set as timeouts, of
those that were cleared, and of the callbacks that were run. -/
structure TimerUse (C : Type) where
  manager : TimerManager C
  phase : LoopPhase C
  created : List Int32
  timeouts : List Int32
  cleared : List Int32
  ran : List Int32

/-- A call of a method, or the next step of the loop, with the clock. -/
inductive TimerStep (C : Type) where
  | setTimeout (now : ℤ) (callback : Option C) (delayMs : Int32)
  | setInterval (now : ℤ) (callback : Option C) (intervalMs : Int32)
  | clearTimer (timerId : Int32)
  | clearAll
  | loop (now : ℤ)

namespace TimerUse

/-- A new manager. -/
def create : TimerUse C := ⟨TimerManager.create, .collecting, [], [], [], []⟩

/-- `clearTimer`, by a caller or by the loop. -/
def clear (s : TimerUse C) (id : Int32) : TimerUse C :=
  { s with
    manager := (s.manager.clearTimer id).2
    cleared := if id ∈ s.created then id :: s.cleared else s.cleared }

/-- The next step of the loop. -/
def stepLoop (s : TimerUse C) (now : ℤ) : TimerUse C :=
  match s.phase with
  | .collecting => { s with phase := .executing (s.manager.collect now) }
  | .executing [] => { s with phase := .collecting }
  | .executing (id :: rest) =>
    match s.manager.find id with
    | none => { s with phase := .fetched id none false 0 rest }
    | some info =>
      { s with phase := .fetched id info.callback info.repeating info.interval rest }
  | .fetched id none repeating interval rest =>
    { s with phase := .called id repeating interval rest }
  | .fetched id (some _) repeating interval rest =>
    { s with phase := .called id repeating interval rest, ran := id :: s.ran }
  | .called id true interval rest =>
    { s with
      manager := s.manager.reschedule id (now + interval * 1000000)
      phase := .executing rest }
  | .called id false _ rest => { s.clear id with phase := .executing rest }

/-- The next step. -/
def step (s : TimerUse C) : TimerStep C → TimerUse C
  | .setTimeout now callback delayMs =>
    let r := s.manager.setTimeout now callback delayMs
    { s with manager := r.2, created := r.1 :: s.created, timeouts := r.1 :: s.timeouts }
  | .setInterval now callback intervalMs =>
    let r := s.manager.setInterval now callback intervalMs
    { s with manager := r.2, created := r.1 :: s.created }
  | .clearTimer timerId => s.clear timerId
  | .clearAll => { s with manager := s.manager.clearAll, cleared := s.created }
  | .loop now => s.stepLoop now

/-- A step sets a timer. -/
def sets : TimerStep C → Bool
  | .setTimeout _ _ _ => true
  | .setInterval _ _ _ => true
  | _ => false

/-- The step fetches the timer under an id. -/
def Fetches (s : TimerUse C) (e : TimerStep C) (id : Int32) : Prop :=
  (∃ now, e = .loop now) ∧ (∃ rest, s.phase = .executing (id :: rest)) ∧
    (s.manager.find id).isSome

/-- Different timers have different ids, the callback of a timeout is run at most once, and no
timer is fetched after it was cleared. -/
structure Lawful (steps : List (TimerStep C)) : Prop where
  nodup : (run step create steps).created.Nodup
  once : ∀ id ∈ (run step create steps).timeouts, (run step create steps).ran.count id ≤ 1
  cleared : Along step (fun s e => ∀ id, Fetches s e id → id ∉ s.cleared) create steps

/-! ## What holds of every state -/

/-- The ids that the loop has yet to deal with. -/
def ids : LoopPhase C → List Int32
  | .collecting => []
  | .executing toExecute => toExecute
  | .fetched id _ _ _ rest => id :: rest
  | .called id _ _ rest => id :: rest

/-- The ids are those of a counter, the table has no timer that was cleared, and a timeout that
has run is gone or about to be cleared. -/
structure Sound (s : TimerUse C) : Prop where
  nextId : s.manager.nextId = Int32.ofNat (s.created.length + 1)
  created : ∀ id ∈ s.created, ∃ k < s.created.length, id = Int32.ofNat (k + 1)
  nodup : s.created.Nodup
  timeouts : ∀ id ∈ s.timeouts, id ∈ s.created
  cleared : ∀ id ∈ s.cleared, id ∈ s.created ∧ s.manager.timers[id]? = none
  timers : ∀ (id : Int32) (info : TimerInfo C), s.manager.timers[id]? = some info →
    id ∈ s.created ∧ (id ∈ s.timeouts → info.repeating = false)
  ran : ∀ id ∈ s.ran, id ∈ s.created
  once : ∀ id ∈ s.timeouts, s.ran.count id ≤ 1
  ended : ∀ id ∈ s.timeouts, id ∈ s.ran → s.manager.timers[id]? = none ∨
    ∃ interval rest, s.phase = .called id false interval rest
  ids : ∀ id ∈ ids s.phase, id ∈ s.created
  fetched : ∀ id cb repeating interval rest, s.phase = .fetched id cb repeating interval rest →
    id ∈ s.timeouts → repeating = false ∧ (cb.isSome → id ∉ s.ran)
  called : ∀ id repeating interval rest, s.phase = .called id repeating interval rest →
    id ∈ s.timeouts → repeating = false

theorem sound_create : (create : TimerUse C).Sound where
  nextId := rfl
  created _ h := absurd h List.not_mem_nil
  nodup := List.nodup_nil
  timeouts _ h := absurd h List.not_mem_nil
  cleared _ h := absurd h List.not_mem_nil
  timers id info h := by
    rw [create, TimerManager.create, Std.TreeMap.getElem?_emptyc] at h
    cases h
  ran _ h := absurd h List.not_mem_nil
  once _ h := absurd h List.not_mem_nil
  ended _ h := absurd h List.not_mem_nil
  ids _ h := absurd h List.not_mem_nil
  fetched _ _ _ _ _ h := nomatch h
  called _ _ _ _ h := nomatch h

theorem ofNat_inj_of_lt {a b : ℕ} (ha : a < 2 ^ 32) (hb : b < 2 ^ 32)
    (h : Int32.ofNat a = Int32.ofNat b) : a = b := by
  have hbits := congrArg (fun x => x.toBitVec.toNat) h
  simp only [Int32.toBitVec_ofNat', BitVec.toNat_ofNat] at hbits
  rwa [Nat.mod_eq_of_lt ha, Nat.mod_eq_of_lt hb] at hbits

variable {s : TimerUse C}

/-- The next id is new. -/
theorem Sound.fresh (h : s.Sound) (hfew : s.created.length < 2 ^ 31) :
    s.manager.nextId ∉ s.created := by
  intro hmem
  obtain ⟨k, hk, heq⟩ := h.created _ hmem
  rw [h.nextId] at heq
  have hsame := ofNat_inj_of_lt (by omega) (by omega) heq
  omega

/-- Another timer is as it was. -/
theorem getElem?_setTimer_of_ne (m : TimerManager C) (now : ℤ) (callback : Option C) (ms : Int32)
    (repeating : Bool) {id : Int32} (hid : m.nextId ≠ id) :
    (m.setTimer now callback ms repeating).2.timers[id]? = m.timers[id]? := by
  dsimp only [TimerManager.setTimer]
  rw [getElem?_insert_eq, if_neg hid]

theorem eq_some_of_setTimer {m : TimerManager C} {now : ℤ} {callback : Option C} {ms : Int32}
    {repeating : Bool} {id : Int32} {info : TimerInfo C}
    (h : (m.setTimer now callback ms repeating).2.timers[id]? = some info) :
    m.nextId = id ∧ info.repeating = repeating ∨ m.timers[id]? = some info := by
  dsimp only [TimerManager.setTimer] at h
  rw [getElem?_insert_eq] at h
  split_ifs at h with hid
  · rw [← Option.some.inj h]
    exact Or.inl ⟨hid, rfl⟩
  · exact Or.inr h

theorem Sound.setTimer (h : s.Sound) (hfew : s.created.length < 2 ^ 31) (now : ℤ)
    (callback : Option C) (ms : Int32) (repeating : Bool) {timeouts : List Int32}
    (htimeouts : ∀ id ∈ timeouts,
      id = s.manager.nextId ∧ repeating = false ∨ id ∈ s.timeouts) :
    Sound
      { s with
        manager := (s.manager.setTimer now callback ms repeating).2
        created := s.manager.nextId :: s.created
        timeouts := timeouts } := by
  have hfresh := h.fresh hfew
  have hold : ∀ id ∈ s.created, s.manager.nextId ≠ id := by
    rintro id hmem rfl
    exact hfresh hmem
  have htimeout : ∀ id ∈ s.created, id ∈ timeouts → id ∈ s.timeouts := fun id hmem hid =>
    (htimeouts id hid).resolve_left (fun hnew => hold id hmem hnew.1.symm)
  have hkept : ∀ id ∈ s.created, (s.manager.setTimer now callback ms repeating).2.timers[id]? =
      s.manager.timers[id]? :=
    fun id hmem => getElem?_setTimer_of_ne s.manager now callback ms repeating (hold id hmem)
  have hids : ∀ id ∈ TimerUse.ids s.phase, id ∈ timeouts → id ∈ s.timeouts :=
    fun id hmem => htimeout id (h.ids id hmem)
  refine
    { nextId := ?nextId
      created := ?created
      nodup := List.nodup_cons.mpr ⟨hfresh, h.nodup⟩
      timeouts := ?timeouts
      cleared := ?cleared
      timers := ?timers
      ran := fun id hid => List.mem_cons_of_mem _ (h.ran id hid)
      once := ?once
      ended := ?ended
      ids := fun id hid => List.mem_cons_of_mem _ (h.ids id hid)
      fetched := ?fetched
      called := ?called }
  case nextId =>
    show s.manager.nextId + 1 = Int32.ofNat (s.created.length + 1 + 1)
    rw [h.nextId, Int32.ofNat_add (s.created.length + 1)]
    rfl
  case created =>
    intro id hmem
    rcases List.mem_cons.mp hmem with rfl | hmem
    · exact ⟨s.created.length, Nat.lt_succ_self _, h.nextId⟩
    · obtain ⟨k, hk, heq⟩ := h.created id hmem
      exact ⟨k, Nat.lt_succ_of_lt hk, heq⟩
  case timeouts =>
    intro id hid
    rcases htimeouts id hid with ⟨rfl, -⟩ | hid
    · exact List.mem_cons_self
    · exact List.mem_cons_of_mem _ (h.timeouts id hid)
  case cleared =>
    intro id hid
    obtain ⟨hmem, hnone⟩ := h.cleared id hid
    exact ⟨List.mem_cons_of_mem _ hmem, (hkept id hmem).trans hnone⟩
  case timers =>
    intro id info hinfo
    rcases eq_some_of_setTimer hinfo with ⟨rfl, hrepeating⟩ | hlookup
    · refine ⟨List.mem_cons_self, fun hid => hrepeating.trans ?_⟩
      exact (htimeouts _ hid).elim (fun hnew => hnew.2)
        (fun hid => absurd (h.timeouts _ hid) hfresh)
    · obtain ⟨hmem, hrepeating⟩ := h.timers id info hlookup
      exact ⟨List.mem_cons_of_mem _ hmem, fun hid => hrepeating (htimeout id hmem hid)⟩
  case once =>
    intro id hid
    rcases htimeouts id hid with ⟨rfl, -⟩ | hid
    · rw [List.count_eq_zero.mpr (fun hran => hfresh (h.ran _ hran))]
      exact Nat.zero_le 1
    · exact h.once id hid
  case ended =>
    intro id hid hran
    have hmem := h.ran id hran
    exact (h.ended id (htimeout id hmem hid) hran).imp_left (hkept id hmem).trans
  case fetched =>
    intro id cb repeating' interval rest hphase hid
    have hmem : id ∈ TimerUse.ids s.phase := by
      rw [show s.phase = _ from hphase]
      exact List.mem_cons_self
    exact h.fetched id cb repeating' interval rest hphase (hids id hmem hid)
  case called =>
    intro id repeating' interval rest hphase hid
    have hmem : id ∈ TimerUse.ids s.phase := by
      rw [show s.phase = _ from hphase]
      exact List.mem_cons_self
    exact h.called id repeating' interval rest hphase (hids id hmem hid)

/-- The table loses timers or changes the times of some. -/
theorem Sound.setTable (h : s.Sound) (manager : TimerManager C)
    (hnext : manager.nextId = s.manager.nextId)
    (hkept : ∀ (id : Int32) (info : TimerInfo C), manager.timers[id]? = some info →
      ∃ old : TimerInfo C, s.manager.timers[id]? = some old ∧ info.repeating = old.repeating)
    {cleared : List Int32} (hcleared : ∀ id ∈ cleared,
      id ∈ s.cleared ∨ id ∈ s.created ∧ manager.timers[id]? = none) :
    Sound { s with manager := manager, cleared := cleared } := by
  have hnone : ∀ id : Int32, s.manager.timers[id]? = none → manager.timers[id]? = none := by
    intro id hold
    rw [Option.eq_none_iff_forall_ne_some]
    intro info hinfo
    obtain ⟨old, hlookup, -⟩ := hkept id info hinfo
    rw [hold] at hlookup
    cases hlookup
  refine { h with
    nextId := hnext.trans h.nextId
    cleared := fun id hid => ?_
    timers := fun id info hinfo => ?_
    ended := fun id hid hran => (h.ended id hid hran).imp_left (hnone id) }
  · exact (hcleared id hid).elim
      (fun hold => ⟨(h.cleared id hold).1, hnone id (h.cleared id hold).2⟩) (fun hnew => hnew)
  · obtain ⟨old, hlookup, hsame⟩ := hkept id info hinfo
    obtain ⟨hmem, hrepeating⟩ := h.timers id old hlookup
    exact ⟨hmem, fun hid => hsame.trans (hrepeating hid)⟩

theorem getElem?_clearTimer (m : TimerManager C) (id id' : Int32) :
    (m.clearTimer id).2.timers[id']? = if id = id' then none else m.timers[id']? := by
  rw [TimerManager.clearTimer]
  cases hlookup : m.timers[id]? with
  | none =>
    split_ifs with hid
    · rw [← hid]
      exact hlookup
    · rfl
  | some info => exact getElem?_erase_eq m.timers id id'

theorem nextId_clearTimer (m : TimerManager C) (id : Int32) :
    (m.clearTimer id).2.nextId = m.nextId := by
  rw [TimerManager.clearTimer]
  cases m.timers[id]? with
  | none => rfl
  | some info => rfl

theorem Sound.clear (h : s.Sound) (id : Int32) : (s.clear id).Sound := by
  refine h.setTable (s.manager.clearTimer id).2 (nextId_clearTimer s.manager id)
    (fun id' info hinfo => ?_) (fun id' hid => ?_)
  · rw [getElem?_clearTimer] at hinfo
    split_ifs at hinfo
    exact ⟨info, hinfo, rfl⟩
  · split_ifs at hid with hmem
    · rcases List.mem_cons.mp hid with rfl | hid
      · refine Or.inr ⟨hmem, ?_⟩
        rw [getElem?_clearTimer, if_pos rfl]
      · exact Or.inl hid
    · exact Or.inl hid

theorem Sound.clearAll (h : s.Sound) : (s.step .clearAll).Sound := by
  refine h.setTable s.manager.clearAll rfl (fun id info hinfo => ?_)
    (fun id hid => Or.inr ⟨hid, ?_⟩)
  · rw [TimerManager.clearAll, Std.TreeMap.getElem?_emptyc] at hinfo
    cases hinfo
  · exact Std.TreeMap.getElem?_emptyc

theorem find_eq_some {m : TimerManager C} {id : Int32} {info : TimerInfo C}
    (h : m.find id = some info) : m.timers[id]? = some info :=
  (Option.filter_eq_some_iff.mp h).1

theorem Sound.reschedule (h : s.Sound) (id : Int32) (nextRun : ℤ) :
    Sound { s with manager := s.manager.reschedule id nextRun } := by
  rw [TimerManager.reschedule]
  cases hfind : s.manager.find id with
  | none => exact h
  | some info =>
    refine h.setTable { s.manager with timers := s.manager.timers.insert id _ } rfl
      (fun id' info' hinfo => ?_) (fun id' hid => Or.inl hid)
    rw [getElem?_insert_eq] at hinfo
    split_ifs at hinfo with hid
    · subst hid
      exact ⟨info, find_eq_some hfind, by rw [← Option.some.inj hinfo]⟩
    · exact ⟨info', hinfo, rfl⟩

/-! ## The loop -/

/-- Outside the step that clears it, a timeout that has run is gone. -/
theorem Sound.gone (h : s.Sound)
    (hphase : ∀ id interval rest, s.phase ≠ .called id false interval rest) {id : Int32}
    (hid : id ∈ s.timeouts) (hran : id ∈ s.ran) : s.manager.timers[id]? = none := by
  rcases h.ended id hid hran with hnone | ⟨interval, rest, hcalled⟩
  · exact hnone
  · exact absurd hcalled (hphase id interval rest)

/-- The loop goes on to the next ids. -/
theorem Sound.execute (h : s.Sound) {toExecute : List Int32}
    (hids : ∀ id ∈ toExecute, id ∈ s.created)
    (hgone : ∀ id ∈ s.timeouts, id ∈ s.ran → s.manager.timers[id]? = none) :
    Sound { s with phase := .executing toExecute } :=
  { h with
    ended := fun id hid hran => Or.inl (hgone id hid hran)
    ids := hids
    fetched := fun _ _ _ _ _ heq => nomatch heq
    called := fun _ _ _ _ heq => nomatch heq }

theorem Sound.fetch (h : s.Sound) {id : Int32} {rest : List Int32}
    (hphase : s.phase = .executing (id :: rest)) {cb : Option C} {repeating : Bool} (interval : ℤ)
    (hfetched : id ∈ s.timeouts → repeating = false ∧ (cb.isSome → id ∉ s.ran)) :
    Sound { s with phase := .fetched id cb repeating interval rest } := by
  have hids := h.ids
  rw [hphase] at hids
  refine { h with
    ended := fun id hid hran => Or.inl (h.gone (fun _ _ _ heq => ?_) hid hran)
    ids := hids
    fetched := fun _ _ _ _ _ heq hid => ?_
    called := fun _ _ _ _ heq => nomatch heq }
  · rw [hphase] at heq
    cases heq
  · cases heq
    exact hfetched hid

/-- The callback runs if there is one. -/
theorem Sound.call (h : s.Sound) {id : Int32} {cb : Option C} {repeating : Bool} {interval : ℤ}
    {rest : List Int32} (hphase : s.phase = .fetched id cb repeating interval rest)
    {ran : List Int32} (hran : ran = s.ran ∨ cb.isSome ∧ ran = id :: s.ran) :
    Sound { s with phase := .called id repeating interval rest, ran := ran } := by
  have hids := h.ids
  rw [hphase] at hids
  have hfetched := h.fetched id cb repeating interval rest hphase
  have hgone : ∀ id ∈ s.timeouts, id ∈ s.ran → s.manager.timers[id]? = none := by
    refine fun id hid hran => h.gone (fun _ _ _ heq => ?_) hid hran
    rw [hphase] at heq
    cases heq
  refine { h with
    ran := fun id' hid => ?_
    once := fun id' hid => ?_
    ended := fun id' hid hmem => ?_
    ids := hids
    fetched := fun _ _ _ _ _ heq => nomatch heq
    called := fun id' _ _ _ heq hid => ?_ }
  · rcases hran with rfl | ⟨-, rfl⟩
    · exact h.ran id' hid
    · rcases List.mem_cons.mp hid with rfl | hid
      · exact hids id' List.mem_cons_self
      · exact h.ran id' hid
  · rcases hran with rfl | ⟨hsome, rfl⟩
    · exact h.once id' hid
    · by_cases heq : id = id'
      · subst heq
        rw [List.count_cons_self, List.count_eq_zero.mpr ((hfetched hid).2 hsome)]
      · rw [List.count_cons_of_ne heq]
        exact h.once id' hid
  · rcases hran with rfl | ⟨-, rfl⟩
    · exact Or.inl (hgone id' hid hmem)
    · rcases List.mem_cons.mp hmem with rfl | hmem
      · refine Or.inr ⟨interval, rest, ?_⟩
        rw [(hfetched hid).1]
      · exact Or.inl (hgone id' hid hmem)
  · cases heq
    exact (hfetched hid).1

theorem Sound.collect (h : s.Sound) (hphase : s.phase = .collecting) (now : ℤ) :
    Sound { s with phase := .executing (s.manager.collect now) } := by
  refine h.execute (fun id hid => ?_)
    (fun id => h.gone (fun _ _ _ heq => by rw [hphase] at heq; cases heq))
  obtain ⟨e, he, rfl⟩ := List.mem_map.mp hid
  have hlookup := Std.TreeMap.mem_toList_iff_getElem?_eq_some.mp (List.mem_filter.mp he).1
  exact (h.timers e.1 e.2 hlookup).1

/-- A repeating timer gets its next time, if it is still there. -/
theorem Sound.repeated (h : s.Sound) {id : Int32} {interval : ℤ} {rest : List Int32}
    (hphase : s.phase = .called id true interval rest) (nextRun : ℤ) :
    Sound { s with manager := s.manager.reschedule id nextRun, phase := .executing rest } := by
  have hids := h.ids
  rw [hphase] at hids
  refine (h.reschedule id nextRun).execute
    (fun id' hid => hids id' (List.mem_cons_of_mem _ hid)) (fun id' hid hran => ?_)
  refine (h.reschedule id nextRun).gone (fun _ _ _ heq => ?_) hid hran
  change s.phase = _ at heq
  rw [hphase] at heq
  cases heq

/-- A timeout is cleared, and so it is gone. -/
theorem Sound.finished (h : s.Sound) {id : Int32} {interval : ℤ} {rest : List Int32}
    (hphase : s.phase = .called id false interval rest) :
    Sound { s.clear id with phase := .executing rest } := by
  have hids := h.ids
  rw [hphase] at hids
  refine (h.clear id).execute
    (fun id' hid => hids id' (List.mem_cons_of_mem _ hid)) (fun id' hid hran => ?_)
  rcases (h.clear id).ended id' hid hran with hnone | ⟨_, _, hcalled⟩
  · exact hnone
  · change s.phase = _ at hcalled
    rw [hphase] at hcalled
    cases hcalled
    show (s.manager.clearTimer id).2.timers[id]? = none
    rw [getElem?_clearTimer, if_pos rfl]

theorem Sound.stepLoop (h : s.Sound) (now : ℤ) : (s.stepLoop now).Sound := by
  rw [TimerUse.stepLoop]
  cases hphase : s.phase with
  | collecting => exact h.collect hphase now
  | executing toExecute =>
    have hgone : ∀ id ∈ s.timeouts, id ∈ s.ran → s.manager.timers[id]? = none :=
      fun id => h.gone (fun _ _ _ heq => by rw [hphase] at heq; cases heq)
    cases toExecute with
    | nil =>
      exact
        { h with
          ended := fun id hid hran => Or.inl (hgone id hid hran)
          ids := fun _ hid => absurd hid List.not_mem_nil
          fetched := fun _ _ _ _ _ heq => nomatch heq
          called := fun _ _ _ _ heq => nomatch heq }
    | cons id rest =>
      dsimp only
      cases hfind : s.manager.find id with
      | none => exact h.fetch hphase 0 (fun _ => ⟨rfl, fun hsome => nomatch hsome⟩)
      | some info =>
        refine h.fetch hphase info.interval (fun hid => ?_)
        have hlookup := find_eq_some hfind
        refine ⟨(h.timers id info hlookup).2 hid, fun _ hran => ?_⟩
        rw [hgone id hid hran] at hlookup
        cases hlookup
  | fetched id cb repeating interval rest =>
    cases cb with
    | none => exact h.call hphase (Or.inl rfl)
    | some callback => exact h.call hphase (Or.inr ⟨rfl, rfl⟩)
  | called id repeating interval rest =>
    cases repeating with
    | true => exact h.repeated hphase (now + interval * 1000000)
    | false => exact h.finished hphase

/-! ## Runs -/

theorem Sound.step (h : s.Sound) {e : TimerStep C}
    (hfew : sets e = true → s.created.length < 2 ^ 31) : (s.step e).Sound := by
  cases e with
  | setTimeout now callback delayMs =>
    refine h.setTimer (hfew rfl) now callback delayMs false (fun id hid => ?_)
    exact (List.mem_cons.mp hid).imp_left (fun heq => ⟨heq, rfl⟩)
  | setInterval now callback intervalMs =>
    exact h.setTimer (hfew rfl) now callback intervalMs true (fun id hid => Or.inr hid)
  | clearTimer timerId => exact h.clear timerId
  | clearAll => exact h.clearAll
  | loop now => exact h.stepLoop now

theorem created_stepLoop (s : TimerUse C) (now : ℤ) : (s.stepLoop now).created = s.created := by
  rw [stepLoop]
  cases s.phase with
  | collecting => rfl
  | executing toExecute =>
    cases toExecute with
    | nil => rfl
    | cons id rest =>
      dsimp only
      cases s.manager.find id with
      | none => rfl
      | some info => rfl
  | fetched id cb repeating interval rest =>
    cases cb with
    | none => rfl
    | some callback => rfl
  | called id repeating interval rest =>
    cases repeating with
    | true => rfl
    | false => rfl

theorem length_created_step (s : TimerUse C) (e : TimerStep C) :
    (s.step e).created.length = s.created.length + if sets e then 1 else 0 := by
  cases e with
  | loop now => exact congrArg List.length (created_stepLoop s now)
  | _ => rfl

theorem along_few {steps : List (TimerStep C)}
    (hfew : s.created.length + steps.countP sets ≤ 2 ^ 31) :
    Along step (fun s e => sets e = true → s.created.length < 2 ^ 31) s steps := by
  induction steps generalizing s with
  | nil => trivial
  | cons e steps ih =>
    rw [List.countP_cons] at hfew
    refine ⟨fun hsets => ?_, ih ?_⟩
    · rw [if_pos hsets] at hfew
      omega
    · rw [length_created_step]
      omega

/-- A timer that is fetched was not cleared. -/
theorem Sound.not_cleared (h : s.Sound) {e : TimerStep C} {id : Int32} (hfetches : Fetches s e id) :
    id ∉ s.cleared := by
  intro hcleared
  obtain ⟨info, hfind⟩ := Option.isSome_iff_exists.mp hfetches.2.2
  have hlookup := find_eq_some hfind
  rw [(h.cleared id hcleared).2] at hlookup
  cases hlookup

/-- Where fewer timers are set than there are ids, every timeout runs at most once, and no timer is
fetched after it was cleared. -/
theorem lawful_of_few (steps : List (TimerStep C)) (hfew : steps.countP sets < 2 ^ 31) :
    Lawful steps := by
  have halong : Along step (fun s e => sets e = true → s.created.length < 2 ^ 31)
      (create : TimerUse C) steps := along_few (by rw [create, List.length_nil]; omega)
  have hstep : ∀ (s : TimerUse C) e, s.Sound →
      (sets e = true → s.created.length < 2 ^ 31) → (s.step e).Sound :=
    fun s e h hfew => h.step hfew
  have hend : (run step create steps).Sound := run_invariant hstep sound_create halong
  exact ⟨hend.nodup, hend.once,
    halong.imp_of_invariant hstep (fun s e h _ id hfetches => h.not_cleared hfetches) sound_create⟩

/-- A timeout that clears itself, and is set again. -/
theorem lawful_self_clearing :
    Lawful (C := Unit) [.setTimeout 0 (some ()) 5, .loop 5000000, .loop 5000000, .loop 5000000,
      .clearTimer 1, .setTimeout 5000000 (some ()) 5, .loop 5000000] :=
  lawful_of_few _ (by decide)

end TimerUse

end Blackstone.Bank
