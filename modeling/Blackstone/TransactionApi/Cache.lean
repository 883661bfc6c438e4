import Blackstone.Library.Runs

/-!
# The cache of the transaction API

The handlers of `controllers/transactionController.js`, each as its awaited steps on the database
and the cache, for one id. A step may fail: the methods of `CacheService` catch their errors, and an
error of the database ends the handler. Entries do not expire.

`updateTransaction` and `deleteTransaction` invalidate the entry after they have written to the
database. `decryptTransaction` writes without doing so, and the steps that fill the cache write what
was read before. Along the steps in which none of these leaves a wrong entry that nothing is going
to invalidate, the cache agrees with the database whenever all requests have ended
(`coherent_of_timely`).
-/

namespace Blackstone.TransactionApi.Cache

open Runs

/-- Where a request to `createTransaction` is: `save` has as many chunks to come as it says. -/
inductive CreatePhase
  | idle
  | save (chunks : ℕ)
  | saveChunks (left : ℕ)
  | set
  | log
  | done
deriving DecidableEq

/-- Where another request is. `loaded` is the status of the document that it has read. -/
inductive Phase
  | getCached
  | getFind
  | getSet (loaded : String)
  | decryptFind
  | decryptChunks (loaded : String)
  | decryptSave (loaded : String)
  | updateFind (status : Option String)
  | updateSave (loaded : String) (status : Option String)
  | updateDel
  | deleteFind
  | deleteChunks
  | deleteDel
  | log
  | done
deriving DecidableEq

/-- The status in the database and in the cache, where there is one. -/
structure Store where
  db : Option String
  cache : Option String
deriving DecidableEq

/-- `save` of a document that was read with the status `loaded` and given the status `status`. Only
what was changed is written, and a document that is gone is an error. -/
def saveStatus (s : Store) (loaded status : String) : Store :=
  if status = loaded then s else { s with db := some status }

/-- The next step of `createTransaction`. -/
def CreatePhase.step (s : Store) (fails : Bool) : CreatePhase → Store × CreatePhase
  | .idle => (s, .idle)
  | .save chunks =>
    if fails then (s, .log) else ({ s with db := some "encrypted" }, .saveChunks chunks)
  | .saveChunks 0 => (s, .set)
  | .saveChunks (left + 1) => if fails then (s, .log) else (s, .saveChunks left)
  | .set => (if fails then s else { s with cache := some "encrypted" }, .log)
  | .log => (s, .done)
  | .done => (s, .done)

/-- The next step of another request. -/
def Phase.step (s : Store) (fails : Bool) : Phase → Store × Phase
  | .getCached => (s, if fails = false ∧ s.cache ≠ none then .done else .getFind)
  | .getFind =>
    (s, if fails then .done else
      match s.db with
      | some loaded => .getSet loaded
      | none => .done)
  | .getSet loaded => (if fails then s else { s with cache := some loaded }, .done)
  | .decryptFind =>
    (s, if fails then .log else
      match s.db with
      | some loaded => .decryptChunks loaded
      | none => .done)
  | .decryptChunks loaded => (s, if fails then .log else .decryptSave loaded)
  | .decryptSave loaded =>
    (if fails ∨ s.db = none then s else saveStatus s loaded "decrypted", .log)
  | .updateFind status =>
    (s, if fails then .done else
      match s.db with
      | some loaded => .updateSave loaded status
      | none => .done)
  | .updateSave loaded status =>
    if fails ∨ s.db = none then (s, .done)
    else (saveStatus s loaded (status.getD loaded), .updateDel)
  | .updateDel => (if fails then s else { s with cache := none }, .done)
  | .deleteFind =>
    if fails ∨ s.db = none then (s, .done) else ({ s with db := none }, .deleteChunks)
  | .deleteChunks => (s, if fails then .done else .deleteDel)
  | .deleteDel => (if fails then s else { s with cache := none }, .log)
  | .log => (s, .done)
  | .done => (s, .done)

/-! ## Runs -/

/-- The requests on one id. It was made by `randomUUID`, so that one request creates it. -/
structure State where
  store : Store
  create : CreatePhase
  requests : List Phase

def State.start : State := ⟨⟨none, none⟩, .idle, []⟩

/-- The first step of a request, where a status that is absent or empty is not written. -/
inductive Request
  | get
  | decrypt
  | update (status : Option String)
  | delete

def Request.phase : Request → Phase
  | .get => .getCached
  | .decrypt => .decryptFind
  | .update status => .updateFind status
  | .delete => .deleteFind

/-- What happens next: a request comes in, or one takes its next step, which may fail. -/
inductive Event
  | startCreate (chunks : ℕ)
  | start (request : Request)
  | stepCreate (fails : Bool)
  | step (i : ℕ) (fails : Bool)

def State.step (s : State) : Event → State
  | .startCreate chunks => if s.create = .idle then { s with create := .save chunks } else s
  | .start request => { s with requests := s.requests ++ [request.phase] }
  | .stepCreate fails =>
    let (store, create) := s.create.step s.store fails
    { s with store := store, create := create }
  | .step i fails =>
    match s.requests[i]? with
    | none => s
    | some p =>
      let (store, p) := p.step s.store fails
      { s with store := store, requests := s.requests.set i p }

/-- All requests have ended. -/
def State.Quiet (s : State) : Prop :=
  (s.create = .idle ∨ s.create = .done) ∧ ∀ p ∈ s.requests, p = .done

instance (s : State) : Decidable s.Quiet :=
  inferInstanceAs (Decidable ((s.create = .idle ∨ s.create = .done) ∧ ∀ p ∈ s.requests, p = .done))

/-- The cache has no entry, or the status of the database. -/
def Store.Coherent (s : Store) : Prop := s.cache = none ∨ s.cache = s.db

instance (s : Store) : Decidable s.Coherent :=
  inferInstanceAs (Decidable (s.cache = none ∨ s.cache = s.db))

/-- The request is going to invalidate the entry, unless a step fails. -/
def Phase.invalidates : Phase → Bool
  | .updateDel => true
  | .deleteChunks => true
  | .deleteDel => true
  | _ => false

/-- A request other than request `i` is going to invalidate the entry. -/
def State.PendingBut (s : State) (i : ℕ) : Prop :=
  ∃ j p, j ≠ i ∧ s.requests[j]? = some p ∧ p.invalidates = true

/-- A request is going to invalidate the entry. -/
def State.Pending (s : State) : Prop := ∃ p ∈ s.requests, p.invalidates = true

/-- What a step must meet. A status is cached while it is the one of the database; the write of
`decryptTransaction` finds no other status in the cache; and an invalidation that fails was not
needed. Or else the entry is going to be invalidated. -/
def State.TimelyStep (s : State) (i : ℕ) (fails : Bool) : Phase → Prop
  | .getSet loaded => fails = false → s.store.db = some loaded ∨ s.PendingBut i
  | .decryptSave loaded =>
    fails = false → s.store.db ≠ none → loaded ≠ "decrypted" →
      s.store.cache = none ∨ s.store.cache = some "decrypted" ∨ s.PendingBut i
  | .updateDel => fails = true → s.store.Coherent ∨ s.PendingBut i
  | .deleteChunks => fails = true → s.store.Coherent ∨ s.PendingBut i
  | .deleteDel => fails = true → s.store.Coherent ∨ s.PendingBut i
  | _ => True

/-- The same of an event. -/
def Timely (s : State) : Event → Prop
  | .stepCreate fails =>
    s.create = .set → fails = false → s.store.db = some "encrypted" ∨ s.Pending
  | .step i fails => ∀ p, s.requests[i]? = some p → s.TimelyStep i fails p
  | _ => True

/-! ## One step of a request -/

section Step

variable {s : State} {i : ℕ} {p : Phase} {fails : Bool}

/-- A request is going to invalidate the entry after a step, unless it was this one. -/
theorem State.PendingBut.pending (hpending : s.PendingBut i) (store : Store) (p : Phase) :
    State.Pending { s with store := store, requests := s.requests.set i p } := by
  obtain ⟨j, p', hne, hj, hinvalidates⟩ := hpending
  refine ⟨p', ?_, hinvalidates⟩
  apply List.mem_of_getElem? (i := j)
  change (s.requests.set i p)[j]? = some p'
  rw [List.getElem?_set_ne hne.symm, hj]

/-- A step from a coherent store leaves no wrong entry that nothing is going to invalidate. -/
theorem safe_step_of_coherent (hcoherent : s.store.Coherent)
    (htimely : s.TimelyStep i fails p) :
    (p.step s.store fails).1.Coherent ∨ (p.step s.store fails).2.invalidates = true ∨
      s.PendingBut i := by
  cases p with
  | getCached => exact Or.inl hcoherent
  | getFind => exact Or.inl hcoherent
  | getSet loaded =>
    cases fails with
    | true => exact Or.inl hcoherent
    | false =>
      rcases htimely rfl with hdb | hpending
      · exact Or.inl (Or.inr hdb.symm)
      · exact Or.inr (Or.inr hpending)
  | decryptFind => exact Or.inl hcoherent
  | decryptChunks loaded => exact Or.inl hcoherent
  | decryptSave loaded =>
    rw [Phase.step]
    split_ifs with hskip
    · exact Or.inl hcoherent
    · rw [not_or, Bool.not_eq_true] at hskip
      rw [saveStatus]
      split_ifs with hsame
      · exact Or.inl hcoherent
      · rcases htimely hskip.1 hskip.2 (Ne.symm hsame) with hnone | hcached | hpending
        · exact Or.inl (Or.inl hnone)
        · exact Or.inl (Or.inr hcached)
        · exact Or.inr (Or.inr hpending)
  | updateFind status => exact Or.inl hcoherent
  | updateSave loaded status =>
    rw [Phase.step]
    split_ifs
    · exact Or.inl hcoherent
    · exact Or.inr (Or.inl rfl)
  | updateDel =>
    cases fails with
    | true => exact Or.inl hcoherent
    | false => exact Or.inl (Or.inl rfl)
  | deleteFind =>
    rw [Phase.step]
    split_ifs
    · exact Or.inl hcoherent
    · exact Or.inr (Or.inl rfl)
  | deleteChunks => exact Or.inl hcoherent
  | deleteDel =>
    cases fails with
    | true => exact Or.inl hcoherent
    | false => exact Or.inl (Or.inl rfl)
  | log => exact Or.inl hcoherent
  | done => exact Or.inl hcoherent

/-- A request that is going to invalidate the entry does so, or it was not needed. -/
theorem safe_step_of_invalidates (hinvalidates : p.invalidates = true)
    (htimely : s.TimelyStep i fails p) :
    (p.step s.store fails).1.Coherent ∨ (p.step s.store fails).2.invalidates = true ∨
      s.PendingBut i := by
  have hfailed : (fails = true → s.store.Coherent ∨ s.PendingBut i) → fails = true →
      s.store.Coherent ∨ (p.step s.store fails).2.invalidates = true ∨ s.PendingBut i :=
    fun h hfails => (h hfails).imp_right Or.inr
  cases p with
  | updateDel =>
    cases fails with
    | true => exact hfailed htimely rfl
    | false => exact Or.inl (Or.inl rfl)
  | deleteChunks =>
    cases fails with
    | true => exact hfailed htimely rfl
    | false => exact Or.inr (Or.inl rfl)
  | deleteDel =>
    cases fails with
    | true => exact hfailed htimely rfl
    | false => exact Or.inl (Or.inl rfl)
  | _ => cases hinvalidates

theorem safe_step (hsafe : s.store.Coherent ∨ p.invalidates = true ∨ s.PendingBut i)
    (htimely : s.TimelyStep i fails p) :
    (p.step s.store fails).1.Coherent ∨ (p.step s.store fails).2.invalidates = true ∨
      s.PendingBut i := by
  rcases hsafe with hcoherent | hinvalidates | hpending
  · exact safe_step_of_coherent hcoherent htimely
  · exact safe_step_of_invalidates hinvalidates htimely
  · exact Or.inr (Or.inr hpending)

/-- No document and no entry, and a request that has read nothing. -/
def Phase.early : Phase → Bool
  | .getCached => true
  | .getFind => true
  | .decryptFind => true
  | .updateFind _ => true
  | .deleteFind => true
  | .log => true
  | .done => true
  | _ => false

/-- Before the document is there, requests do nothing. -/
theorem early_step (hearly : p.early = true) :
    (p.step ⟨none, none⟩ fails).1 = ⟨none, none⟩ ∧
      (p.step ⟨none, none⟩ fails).2.early = true := by
  cases p with
  | getCached => cases fails <;> exact ⟨rfl, rfl⟩
  | getFind => cases fails <;> exact ⟨rfl, rfl⟩
  | decryptFind => cases fails <;> exact ⟨rfl, rfl⟩
  | updateFind status => cases fails <;> exact ⟨rfl, rfl⟩
  | deleteFind => cases fails <;> exact ⟨rfl, rfl⟩
  | log => exact ⟨rfl, rfl⟩
  | done => exact ⟨rfl, rfl⟩
  | _ => cases hearly

end Step

/-! ## The invariant -/

/-- There is no wrong entry that nothing is going to invalidate. Before the document is saved there
is nothing, and no request has read anything. -/
structure State.Inv (s : State) : Prop where
  safe : s.store.Coherent ∨ s.Pending
  early : (s.create = .idle ∨ ∃ chunks, s.create = .save chunks) →
    s.store = ⟨none, none⟩ ∧ ∀ p ∈ s.requests, p.early = true

section Invariant

variable {s : State}

theorem State.inv_start : start.Inv where
  safe := Or.inl (Or.inl rfl)
  early _ := ⟨rfl, fun _ hp => absurd hp List.not_mem_nil⟩

/-- When all requests have ended, nothing is going to invalidate the entry. -/
theorem State.Inv.coherent (hinv : s.Inv) (hquiet : s.Quiet) : s.store.Coherent := by
  refine hinv.safe.resolve_right ?_
  rintro ⟨p, hp, hinvalidates⟩
  rw [hquiet.2 p hp] at hinvalidates
  cases hinvalidates

theorem State.Inv.startCreate (hinv : s.Inv) (chunks : ℕ) : (s.step (.startCreate chunks)).Inv := by
  rw [State.step]
  split_ifs with hidle
  · exact ⟨hinv.safe, fun _ => hinv.early (Or.inl hidle)⟩
  · exact hinv

theorem Request.early_phase (request : Request) : request.phase.early = true := by
  cases request with
  | get => rfl
  | decrypt => rfl
  | update status => rfl
  | delete => rfl

theorem State.Inv.start (hinv : s.Inv) (request : Request) : (s.step (.start request)).Inv := by
  refine ⟨hinv.safe.imp_right ?_, ?_⟩
  · rintro ⟨p, hp, hinvalidates⟩
    exact ⟨p, List.mem_append_left _ hp, hinvalidates⟩
  · intro hcreate
    obtain ⟨hstore, hrequests⟩ := hinv.early hcreate
    refine ⟨hstore, ?_⟩
    intro p hp
    rcases List.mem_append.mp hp with hp | hp
    · exact hrequests p hp
    · rw [List.mem_singleton.mp hp]
      exact request.early_phase

/-- The document was saved, or it is not going to be. -/
theorem State.inv_of_late {create : CreatePhase} {store : Store} {requests : List Phase}
    (hidle : create ≠ .idle) (hsave : ∀ chunks, create ≠ .save chunks)
    (hsafe : store.Coherent ∨ State.Pending ⟨store, create, requests⟩) :
    State.Inv ⟨store, create, requests⟩ where
  safe := hsafe
  early := by
    rintro (hcreate | ⟨chunks, hcreate⟩)
    · exact absurd hcreate hidle
    · exact absurd hcreate (hsave chunks)

/-- The steps of `createTransaction`. -/
theorem State.Inv.stepCreate (hinv : s.Inv) {fails : Bool}
    (htimely : Timely s (.stepCreate fails)) : (s.step (.stepCreate fails)).Inv := by
  obtain ⟨store, create, requests⟩ := s
  have hsafe := hinv.safe
  cases create with
  | idle => exact hinv
  | save chunks =>
    obtain ⟨hstore, -⟩ := hinv.early (Or.inr ⟨chunks, rfl⟩)
    change store = ⟨none, none⟩ at hstore
    subst hstore
    cases fails with
    | true => exact inv_of_late nofun nofun (Or.inl (Or.inl rfl))
    | false => exact inv_of_late nofun nofun (Or.inl (Or.inl rfl))
  | saveChunks left =>
    cases left with
    | zero => exact inv_of_late nofun nofun hsafe
    | succ left =>
      cases fails with
      | true => exact inv_of_late nofun nofun hsafe
      | false => exact inv_of_late nofun nofun hsafe
  | set =>
    cases fails with
    | true => exact inv_of_late nofun nofun hsafe
    | false =>
      refine inv_of_late nofun nofun ?_
      rcases htimely rfl rfl with hdb | hpending
      · exact Or.inl (Or.inr hdb.symm)
      · exact Or.inr hpending
  | log => exact inv_of_late nofun nofun hsafe
  | done => exact inv_of_late nofun nofun hsafe

theorem State.Inv.stepRequest (hinv : s.Inv) {i : ℕ} {fails : Bool}
    (htimely : Timely s (.step i fails)) : (s.step (.step i fails)).Inv := by
  rw [State.step]
  split
  · exact hinv
  · rename_i p hp
    have hsafe : s.store.Coherent ∨ p.invalidates = true ∨ s.PendingBut i := by
      refine hinv.safe.imp_right ?_
      rintro ⟨p', hp', hinvalidates⟩
      obtain ⟨j, hj⟩ := List.mem_iff_getElem?.mp hp'
      by_cases hij : j = i
      · subst hij
        rw [hp, Option.some_inj] at hj
        rw [hj]
        exact Or.inl hinvalidates
      · exact Or.inr ⟨j, p', hij, hj, hinvalidates⟩
    have hmem : i < s.requests.length := (List.getElem?_eq_some_iff.mp hp).1
    constructor
    · rcases safe_step hsafe (htimely p hp) with hcoherent | hinvalidates | hpending
      · exact Or.inl hcoherent
      · exact Or.inr ⟨_, List.mem_set hmem _, hinvalidates⟩
      · exact Or.inr (hpending.pending _ _)
    · intro hcreate
      obtain ⟨hstore, hearly⟩ := hinv.early hcreate
      have hp' := hearly p (List.mem_of_getElem? hp)
      have hstep := @early_step p fails hp'
      rw [← hstore] at hstep
      refine ⟨hstep.1.trans hstore, ?_⟩
      intro q hq
      rcases List.mem_or_eq_of_mem_set hq with hq | rfl
      · exact hearly q hq
      · exact hstep.2

theorem State.Inv.step (hinv : s.Inv) {e : Event} (htimely : Timely s e) : (s.step e).Inv := by
  cases e with
  | startCreate chunks => exact hinv.startCreate chunks
  | start request => exact hinv.start request
  | stepCreate fails => exact hinv.stepCreate htimely
  | step i fails => exact hinv.stepRequest htimely

end Invariant

/-- In every run whose steps meet the condition, the cache has no entry or the status of the
database whenever all requests have ended. -/
theorem coherent_of_timely {events : List Event} (htimely : Along State.step Timely .start events)
    (n : ℕ) (hquiet : (run State.step .start (events.take n)).Quiet) :
    (run State.step .start (events.take n)).store.Coherent := by
  have hinv : ∀ n, (run State.step .start (events.take n)).Inv := by
    rw [forall_run_take_iff State.Inv]
    refine ⟨State.inv_start, ?_⟩
    exact htimely.imp_of_invariant (fun _ _ hinv h => hinv.step h) (fun _ _ hinv h => hinv.step h)
      State.inv_start
  exact (hinv n).coherent hquiet

/-- A transaction of one chunk is created. -/
def createEvents : List Event :=
  [.startCreate 1, .stepCreate false, .stepCreate false, .stepCreate false, .stepCreate false,
    .stepCreate false]

/-- Then it is updated. -/
def updateEvents : List Event :=
  createEvents ++ [.start (.update (some "archived")), .step 0 false, .step 0 false, .step 0 false]

theorem coherent_updateEvents :
    (run State.step .start (updateEvents.take 10)).store.Coherent := by
  refine coherent_of_timely ?_ 10 (by decide)
  refine ⟨trivial, nofun, nofun, nofun, ?_, nofun, trivial, ?_, ?_, ?_, trivial⟩
  · exact fun _ _ => Or.inl rfl
  · rintro p ⟨⟩
    exact trivial
  · rintro p ⟨⟩
    exact trivial
  · rintro p ⟨⟩
    exact nofun

/-- Or it is decrypted. -/
def decryptEvents : List Event :=
  createEvents ++ [.start .decrypt, .step 0 false, .step 0 false, .step 0 false, .step 0 false]

/-- The entry that `createTransaction` has made is left as it is. -/
theorem not_coherent_decryptEvents : (run State.step .start decryptEvents).Quiet ∧
    ¬(run State.step .start decryptEvents).store.Coherent := by
  constructor
  · decide
  · decide

end Blackstone.TransactionApi.Cache
