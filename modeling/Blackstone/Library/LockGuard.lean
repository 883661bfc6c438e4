import Blackstone.Library.Runs
import Mathlib.Tactic.Common

/-!
# Objects with a mutex of their own

A call runs on an object with a flag for its mutex. A guard takes the mutex for the rest of its
block and releases it however the block ends; taking it a second time in one thread is an error
(`Outcome.deadlock`). Calls are composed like statements, so a call may go through others that
lock again.

Every call leaves the mutex as it found it (`Balanced`). Along a run no call deadlocks exactly
when every call is taken in a state that is safe for it (`along_noDeadlock_iff`).
-/

namespace Blackstone.LockGuard

open Runs

variable {σ α β C : Type}

/-- An object and the flag of its mutex. -/
structure Guarded (σ : Type) where
  locked : Bool
  state : σ

/-- How a call ends: it waits for itself, throws an exception or returns. -/
inductive Outcome (σ α : Type) where
  | deadlock
  | threw (after : Guarded σ)
  | returned (result : α) (after : Guarded σ)

/-- The object after a call that ends. -/
def Outcome.after? : Outcome σ α → Option (Guarded σ)
  | .deadlock => none
  | .threw after => some after
  | .returned _ after => some after

/-- A part of a method. -/
def Call (σ α : Type) := Guarded σ → Outcome σ α

namespace Call

/-- One part after another; an exception ends both. -/
def bind (m : Call σ α) (f : α → Call σ β) : Call σ β := fun s =>
  match m s with
  | .deadlock => .deadlock
  | .threw after => .threw after
  | .returned a after => f a after

instance : Monad (Call σ) where
  pure a := fun s => .returned a s
  bind := bind

/-- A part that reads and writes the object. -/
def update (f : σ → α × σ) : Call σ α := fun s => .returned (f s.state).1 ⟨s.locked, (f s.state).2⟩

/-- A part that writes the object. -/
def write (f : σ → σ) : Call σ Unit := update (fun s => ((), f s))

/-- A part that reads the object. -/
def read (f : σ → α) : Call σ α := update (fun s => (f s, s))

/-- A value, or an exception where there is none. -/
def ofOption : Option α → Call σ α
  | none => fun s => .threw s
  | some a => pure a

/-- `std::lock_guard` and the rest of its block. -/
def lockGuard (body : Call σ α) : Call σ α := fun s =>
  if s.locked then .deadlock
  else
    match body ⟨true, s.state⟩ with
    | .deadlock => .deadlock
    | .threw after => .threw ⟨false, after.state⟩
    | .returned a after => .returned a ⟨false, after.state⟩

/-! ## Calls that leave the mutex as they found it -/

/-- A call that ends leaves the mutex as it found it. -/
def Balanced (m : Call σ α) : Prop := ∀ s s', (m s).after? = some s' → s'.locked = s.locked

/-- A call that never waits for itself. -/
def Quiet (m : Call σ α) : Prop := ∀ s, m s ≠ .deadlock

theorem bind_apply (m : Call σ α) (f : α → Call σ β) (s : Guarded σ) :
    (m >>= f) s = match m s with
      | .deadlock => .deadlock
      | .threw after => .threw after
      | .returned a after => f a after := rfl

@[simp] theorem update_bind (f : σ → α × σ) (g : α → Call σ β) (s : Guarded σ) :
    (update f >>= g) s = g (f s.state).1 ⟨s.locked, (f s.state).2⟩ := rfl

@[simp] theorem write_bind (f : σ → σ) (g : Unit → Call σ β) (s : Guarded σ) :
    (write f >>= g) s = g () ⟨s.locked, f s.state⟩ := rfl

@[simp] theorem read_bind (f : σ → α) (g : α → Call σ β) (s : Guarded σ) :
    (read f >>= g) s = g (f s.state) s := rfl

@[simp] theorem ofOption_some_bind (a : α) (g : α → Call σ β) (s : Guarded σ) :
    (ofOption (some a) >>= g) s = g a s := rfl

theorem bind_eq_deadlock {m : Call σ α} {s : Guarded σ} (h : m s = .deadlock)
    (f : α → Call σ β) : (m >>= f) s = .deadlock := by
  rw [bind_apply, h]

/-- A loop waits for itself when its first round does. -/
theorem forM_cons_eq_deadlock {f : α → Call σ Unit} {a : α} {s : Guarded σ}
    (h : f a s = .deadlock) (items : List α) : (a :: items).forM f s = .deadlock :=
  bind_eq_deadlock h _

theorem balanced_pure (a : α) : Balanced (pure a : Call σ α) := by
  intro s s' h
  rw [← Option.some.inj h]

theorem balanced_update (f : σ → α × σ) : Balanced (update f) := by
  intro s s' h
  rw [← Option.some.inj h]

theorem balanced_ofOption (a : Option α) : Balanced (ofOption a : Call σ α) := by
  intro s s' h
  cases a with
  | none => rw [← Option.some.inj h]
  | some a => rw [← Option.some.inj h]

theorem balanced_lockGuard (body : Call σ α) : Balanced (lockGuard body) := by
  intro s s' h
  cases hlocked : s.locked with
  | true =>
    rw [lockGuard, if_pos hlocked] at h
    cases h
  | false =>
    rw [lockGuard, if_neg (by rw [hlocked]; exact Bool.false_ne_true)] at h
    cases hbody : body ⟨true, s.state⟩ with
    | deadlock =>
      rw [hbody] at h
      cases h
    | threw after =>
      rw [hbody] at h
      rw [← Option.some.inj h]
    | returned a after =>
      rw [hbody] at h
      rw [← Option.some.inj h]

theorem Balanced.bind {m : Call σ α} {f : α → Call σ β} (hm : Balanced m)
    (hf : ∀ a, Balanced (f a)) : Balanced (m >>= f) := by
  intro s s' h
  rw [bind_apply] at h
  cases hfirst : m s with
  | deadlock =>
    rw [hfirst] at h
    cases h
  | threw after =>
    rw [hfirst] at h
    rw [← Option.some.inj h]
    exact hm s after (by rw [hfirst]; rfl)
  | returned a after =>
    rw [hfirst] at h
    rw [hf a after s' h]
    exact hm s after (by rw [hfirst]; rfl)

theorem Balanced.discard {m : Call σ α} (hm : Balanced m) : Balanced (discard m) :=
  hm.bind (fun _ => balanced_pure ())

theorem Balanced.forM {f : α → Call σ Unit} (hf : ∀ a, Balanced (f a)) (items : List α) :
    Balanced (items.forM f) := by
  induction items with
  | nil => exact balanced_pure ()
  | cons a items ih => exact (hf a).bind (fun _ => ih)

/-- A call that ends keeps a property of the object. -/
def Preserves (Inv : σ → Prop) (m : Call σ α) : Prop :=
  ∀ s s', Inv s.state → (m s).after? = some s' → Inv s'.state

section Preserves

variable {Inv : σ → Prop}

theorem preserves_pure (a : α) : Preserves Inv (pure a : Call σ α) := by
  intro s s' hs h
  rwa [← Option.some.inj h]

theorem preserves_ofOption (a : Option α) : Preserves Inv (ofOption a : Call σ α) := by
  intro s s' hs h
  cases a with
  | none => rwa [← Option.some.inj h]
  | some a => rwa [← Option.some.inj h]

theorem preserves_update {f : σ → α × σ} (hf : ∀ s, Inv s → Inv (f s).2) :
    Preserves Inv (update f) := by
  intro s s' hs h
  rw [← Option.some.inj h]
  exact hf s.state hs

theorem preserves_read {f : σ → α} : Preserves Inv (read f) := preserves_update (fun _ hs => hs)

theorem Preserves.bind {m : Call σ α} {f : α → Call σ β} (hm : Preserves Inv m)
    (hf : ∀ a, Preserves Inv (f a)) : Preserves Inv (m >>= f) := by
  intro s s' hs h
  rw [bind_apply] at h
  cases hfirst : m s with
  | deadlock =>
    rw [hfirst] at h
    cases h
  | threw after =>
    rw [hfirst] at h
    rw [← Option.some.inj h]
    exact hm s after hs (by rw [hfirst]; rfl)
  | returned a after =>
    rw [hfirst] at h
    exact hf a after s' (hm s after hs (by rw [hfirst]; rfl)) h

theorem Preserves.discard {m : Call σ α} (hm : Preserves Inv m) : Preserves Inv (discard m) :=
  hm.bind (fun _ => preserves_pure ())

theorem Preserves.forM {f : α → Call σ Unit} (hf : ∀ a, Preserves Inv (f a)) (items : List α) :
    Preserves Inv (items.forM f) := by
  induction items with
  | nil => exact preserves_pure ()
  | cons a items ih => exact (hf a).bind (fun _ => ih)

theorem Preserves.lockGuard {body : Call σ α} (hbody : Preserves Inv body) :
    Preserves Inv (lockGuard body) := by
  intro s s' hs h
  rw [Call.lockGuard] at h
  split at h
  · cases h
  · cases hend : body ⟨true, s.state⟩ with
    | deadlock =>
      rw [hend] at h
      cases h
    | threw after =>
      rw [hend] at h
      rw [← Option.some.inj h]
      exact hbody ⟨true, s.state⟩ after hs (by rw [hend]; rfl)
    | returned a after =>
      rw [hend] at h
      rw [← Option.some.inj h]
      exact hbody ⟨true, s.state⟩ after hs (by rw [hend]; rfl)

end Preserves

theorem quiet_pure (a : α) : Quiet (pure a : Call σ α) := fun _ h => by cases h

theorem quiet_update (f : σ → α × σ) : Quiet (update f) := fun _ h => by cases h

theorem quiet_ofOption (a : Option α) : Quiet (ofOption a : Call σ α) := by
  intro s h
  cases a with
  | none => cases h
  | some a => cases h

theorem Quiet.bind {m : Call σ α} {f : α → Call σ β} (hm : Quiet m) (hf : ∀ a, Quiet (f a)) :
    Quiet (m >>= f) := by
  intro s h
  rw [bind_apply] at h
  cases hfirst : m s with
  | deadlock => exact hm s hfirst
  | threw after =>
    rw [hfirst] at h
    cases h
  | returned a after =>
    rw [hfirst] at h
    exact hf a after h

theorem Quiet.forM {f : α → Call σ Unit} (hf : ∀ a, Quiet (f a)) (items : List α) :
    Quiet (items.forM f) := by
  induction items with
  | nil => exact quiet_pure ()
  | cons a items ih => exact (hf a).bind (fun _ => ih)

/-- What a call returns can be replaced. -/
theorem bind_pure_eq_deadlock_iff (m : Call σ α) (f : α → β) (s : Guarded σ) :
    (m >>= fun a => pure (f a)) s = .deadlock ↔ m s = .deadlock := by
  rw [bind_apply]
  cases m s with
  | deadlock => exact iff_of_true rfl rfl
  | threw after => exact ⟨fun h => (by cases h), fun h => (by cases h)⟩
  | returned a after => exact ⟨fun h => (by cases h), fun h => (by cases h)⟩

theorem discard_eq_deadlock_iff (m : Call σ α) (s : Guarded σ) :
    (discard m : Call σ Unit) s = .deadlock ↔ m s = .deadlock :=
  bind_pure_eq_deadlock_iff m (fun _ => ()) s

/-- A call that does not wait for itself where the mutex is free. -/
def Unblocked (m : Call σ α) : Prop := ∀ s : Guarded σ, s.locked = false → m s ≠ .deadlock

theorem Unblocked.bind {m : Call σ α} {f : α → Call σ β} (hm : Unblocked m)
    (hbalanced : Balanced m) (hf : ∀ a, Unblocked (f a)) : Unblocked (m >>= f) := by
  intro s hfree h
  rw [bind_apply] at h
  cases hfirst : m s with
  | deadlock => exact hm s hfree hfirst
  | threw after =>
    rw [hfirst] at h
    cases h
  | returned a after =>
    rw [hfirst] at h
    refine hf a after ?_ h
    rw [hbalanced s after (by rw [hfirst]; rfl), hfree]

theorem Quiet.unblocked {m : Call σ α} (hm : Quiet m) : Unblocked m := fun s _ => hm s

theorem Unblocked.discard {m : Call σ α} (hm : Unblocked m) : Unblocked (discard m) :=
  fun s hfree h => hm s hfree ((discard_eq_deadlock_iff m s).mp h)

theorem Unblocked.forM {f : α → Call σ Unit} (hf : ∀ a, Unblocked (f a))
    (hbalanced : ∀ a, Balanced (f a)) (items : List α) : Unblocked (items.forM f) := by
  induction items with
  | nil => exact fun s _ => quiet_pure () s
  | cons a items ih => exact (hf a).bind (hbalanced a) (fun _ => ih)

/-! ## Guards -/

/-- On a free mutex, a guard waits for itself exactly when its block does. -/
theorem lockGuard_eq_deadlock_iff (body : Call σ α) {s : Guarded σ} (hfree : s.locked = false) :
    lockGuard body s = .deadlock ↔ body ⟨true, s.state⟩ = .deadlock := by
  rw [lockGuard, if_neg (by rw [hfree]; exact Bool.false_ne_true)]
  cases body ⟨true, s.state⟩ with
  | deadlock => exact Iff.rfl
  | threw after => exact ⟨fun h => (by cases h), fun h => (by cases h)⟩
  | returned a after => exact ⟨fun h => (by cases h), fun h => (by cases h)⟩

/-- A guard waits for itself where the mutex is taken. -/
theorem lockGuard_locked (body : Call σ α) {s : Guarded σ} (hlocked : s.locked = true) :
    lockGuard body s = .deadlock := if_pos hlocked

/-- A block that takes no mutex ends under a guard. -/
theorem lockGuard_ne_deadlock {body : Call σ α} (hbody : Quiet body) {s : Guarded σ}
    (hfree : s.locked = false) : lockGuard body s ≠ .deadlock := by
  rw [ne_eq, lockGuard_eq_deadlock_iff body hfree]
  exact hbody _

theorem Quiet.lockGuard {body : Call σ α} (hbody : Quiet body) : Unblocked (lockGuard body) :=
  fun _ hfree => lockGuard_ne_deadlock hbody hfree

theorem unblocked_write (f : σ → σ) : Unblocked (lockGuard (write f)) := (quiet_update _).lockGuard

theorem unblocked_read (f : σ → α) : Unblocked (lockGuard (read f)) := (quiet_update _).lockGuard

end Call

open Call

/-! ## Runs -/

section Runs

variable (perform : C → Call σ Unit)

/-- The object after a call; a thread that waits for itself makes no further step. -/
def step (s : Guarded σ) (c : C) : Guarded σ := ((perform c s).after?).getD s

/-- A call ends. -/
def NoDeadlock (s : Guarded σ) (c : C) : Prop := perform c s ≠ .deadlock

variable {perform}

theorem locked_step (hbalanced : ∀ c, Balanced (perform c)) (s : Guarded σ) (c : C) :
    (step perform s c).locked = s.locked := by
  rw [step]
  cases h : (perform c s).after? with
  | none => rfl
  | some after => exact hbalanced c s after h

theorem invariant_step {Inv : σ → Prop} (hpreserves : ∀ c, Preserves Inv (perform c))
    (s : Guarded σ) (c : C) (hs : Inv s.state) : Inv (step perform s c).state := by
  rw [step]
  cases h : (perform c s).after? with
  | none => exact hs
  | some after => exact hpreserves c s after hs h

/-- Along a run that starts with a free mutex, no call waits for itself exactly when each one
is safe in its state. -/
theorem along_noDeadlock_iff (Inv : σ → Prop) (Safe : σ → C → Prop)
    (hbalanced : ∀ c, Balanced (perform c))
    (hsafe : ∀ s : Guarded σ, s.locked = false → Inv s.state → ∀ c,
      (NoDeadlock perform s c ↔ Safe s.state c))
    (hpreserves : ∀ c, Preserves Inv (perform c)) {s : Guarded σ}
    (hfree : s.locked = false) (hstart : Inv s.state) (calls : List C) :
    Along (step perform) (NoDeadlock perform) s calls ↔
      Along (step perform) (fun s c => Safe s.state c) s calls := by
  apply along_congr_of_invariant (fun s => s.locked = false ∧ Inv s.state)
  · rintro s c ⟨hfree, hstate⟩
    exact hsafe s hfree hstate c
  · rintro s c ⟨hfree, hstate⟩ _
    exact ⟨by rw [locked_step hbalanced, hfree], invariant_step hpreserves s c hstate⟩
  · exact ⟨hfree, hstart⟩

end Runs

end Blackstone.LockGuard
