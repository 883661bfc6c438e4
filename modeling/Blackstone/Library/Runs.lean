import Mathlib.Algebra.BigOperators.Group.Finset.Piecewise
import Mathlib.Data.List.Induction
import Mathlib.Tactic.Abel

/-!
# Runs of a state machine

A machine takes one step for each event of a list. `Along P` says that `P` holds of every
event of the list in the state in which it is taken: a law of the machine and a condition
on its runs both have this form. `run_invariant` and `Along.imp_of_invariant` are the
induction over a run.

A machine with several threads keeps the phase of each of them; `sum_update_phase` follows
a quantity summed over the threads when one of them moves, and `countP_set_phase` the number of
threads in some phases.
-/

namespace Blackstone.Runs

variable {S E : Type} {step : S → E → S}

/-- The state after a list of events. -/
def run (step : S → E → S) (s : S) (events : List E) : S := events.foldl step s

@[simp] theorem run_nil (s : S) : run step s [] = s := rfl

@[simp] theorem run_cons (s : S) (e : E) (events : List E) :
    run step s (e :: events) = run step (step s e) events := rfl

theorem run_concat (s : S) (events : List E) (e : E) :
    run step s (events ++ [e]) = step (run step s events) e := List.foldl_concat _ _ _ _

/-- Every event satisfies `P` in the state in which it is taken. -/
def Along (step : S → E → S) (P : S → E → Prop) : S → List E → Prop
  | _, [] => True
  | s, e :: events => P s e ∧ Along step P (step s e) events

variable {P Q : S → E → Prop} {Inv : S → Prop}

theorem along_append {s : S} {pre post : List E} :
    Along step P s (pre ++ post) ↔ Along step P s pre ∧ Along step P (run step s pre) post := by
  induction pre generalizing s with
  | nil => exact ⟨fun h => ⟨trivial, h⟩, fun h => h.2⟩
  | cons e pre ih =>
    rw [List.cons_append, Along, Along, run_cons, ih, and_assoc]

theorem along_true (s : S) (events : List E) : Along step (fun _ _ => True) s events := by
  induction events generalizing s with
  | nil => trivial
  | cons e events ih => exact ⟨trivial, ih _⟩

theorem along_of_forall {R : E → Prop} {s : S} {events : List E} (h : ∀ e ∈ events, R e) :
    Along step (fun _ e => R e) s events := by
  induction events generalizing s with
  | nil => trivial
  | cons e events ih =>
    exact ⟨h e List.mem_cons_self, ih (fun e' he' => h e' (List.mem_cons_of_mem _ he'))⟩

/-- An invariant that every step satisfying `P` keeps holds after a run along `P`. -/
theorem run_invariant (hstep : ∀ s e, Inv s → P s e → Inv (step s e)) {s : S}
    {events : List E} (hinv : Inv s) (halong : Along step P s events) :
    Inv (run step s events) := by
  induction events generalizing s with
  | nil => exact hinv
  | cons e events ih => exact ih (hstep s e hinv halong.1) halong.2

/-- A property holds in every state of a run if it does at the start and after each step. -/
theorem forall_run_take_iff (Holds : S → Prop) {s : S} {events : List E} :
    (∀ n, Holds (run step s (events.take n))) ↔
      Holds s ∧ Along step (fun s e => Holds (step s e)) s events := by
  induction events generalizing s with
  | nil =>
    simp only [List.take_nil, run_nil]
    exact ⟨fun h => ⟨h 0, trivial⟩, fun h _ => h.1⟩
  | cons e events ih =>
    rw [Along, ← ih]
    constructor
    · intro h
      exact ⟨h 0, fun n => h (n + 1)⟩
    · rintro ⟨hstart, hrest⟩ n
      cases n with
      | zero => exact hstart
      | succ n => exact hrest n

theorem run_take_succ {s : S} {events : List E} {n : ℕ} {e : E} (h : events[n]? = some e) :
    run step s (events.take (n + 1)) = step (run step s (events.take n)) e := by
  rw [List.take_add_one, h, Option.toList_some, run_concat]

theorem along_iff_getElem? {s : S} {events : List E} :
    Along step P s events ↔ ∀ n e, events[n]? = some e → P (run step s (events.take n)) e := by
  induction events generalizing s with
  | nil => exact ⟨fun _ n e h => (nomatch h), fun _ => trivial⟩
  | cons first events ih =>
    rw [Along, ih]
    constructor
    · rintro ⟨hfirst, hrest⟩ n e he
      cases n with
      | zero => rwa [← Option.some.inj he]
      | succ n => exact hrest n e he
    · intro h
      exact ⟨h 0 first rfl, fun n e he => h (n + 1) e he⟩

theorem along_and {s : S} {events : List E} :
    Along step (fun s e => P s e ∧ Q s e) s events ↔
      Along step P s events ∧ Along step Q s events := by
  induction events generalizing s with
  | nil => exact ⟨fun _ => ⟨trivial, trivial⟩, fun _ => trivial⟩
  | cons e events ih => rw [Along, Along, Along, ih, and_and_and_comm]

theorem Along.imp (himp : ∀ s e, P s e → Q s e) {s : S} {events : List E}
    (halong : Along step P s events) : Along step Q s events := by
  induction events generalizing s with
  | nil => trivial
  | cons e events ih => exact ⟨himp s e halong.1, ih halong.2⟩

/-- On a run that keeps an invariant, a condition that implies a law step by step implies
it along the run. -/
theorem Along.imp_of_invariant (hstep : ∀ s e, Inv s → P s e → Inv (step s e))
    (himp : ∀ s e, Inv s → P s e → Q s e) {s : S} {events : List E} (hinv : Inv s)
    (halong : Along step P s events) : Along step Q s events := by
  induction events generalizing s with
  | nil => trivial
  | cons e events ih =>
    exact ⟨himp s e hinv halong.1, ih (hstep s e hinv halong.1) halong.2⟩

/-- On runs that keep an invariant, two conditions that agree step by step agree along the
run. -/
theorem along_congr_of_invariant (Inv : S → Prop)
    (hiff : ∀ s e, Inv s → (P s e ↔ Q s e))
    (hstep : ∀ s e, Inv s → P s e → Inv (step s e)) {s : S} (events : List E) (hinv : Inv s) :
    Along step P s events ↔ Along step Q s events := by
  constructor
  · intro halong
    exact halong.imp_of_invariant hstep (fun s e h => (hiff s e h).mp) hinv
  · intro halong
    exact halong.imp_of_invariant (fun s e h hq => hstep s e h ((hiff s e h).mpr hq))
      (fun s e h => (hiff s e h).mpr) hinv

/-- Two machines that run side by side: where a condition on one is a condition on the other, and
the steps along it keep them together, the runs along it are the same. -/
theorem along_iff_of_simulation {S' E' : Type} {step' : S' → E' → S'} {P' : S' → E' → Prop}
    (Rel : S → S' → Prop) (f : E' → E) (hiff : ∀ s s' e, Rel s s' → (P s (f e) ↔ P' s' e))
    (hstep : ∀ s s' e, Rel s s' → P' s' e → Rel (step s (f e)) (step' s' e)) {s : S} {s' : S'}
    (events : List E') (hrel : Rel s s') :
    Along step P s (events.map f) ↔ Along step' P' s' events := by
  induction events generalizing s s' with
  | nil => exact ⟨fun _ => trivial, fun _ => trivial⟩
  | cons e events ih =>
    rw [List.map_cons, Along, Along, hiff s s' e hrel]
    constructor
    · rintro ⟨he, hrest⟩
      exact ⟨he, (ih (hstep s s' e hrel he)).mp hrest⟩
    · rintro ⟨he, hrest⟩
      exact ⟨he, (ih (hstep s s' e hrel he)).mpr hrest⟩

/-- A property that a step keeps exactly when its event satisfies `P` holds after a run
exactly when it held before and the run is along `P`. -/
theorem run_iff_along (Holds : S → Prop)
    (hstep : ∀ s e, Holds (step s e) ↔ Holds s ∧ P s e) {s : S} (events : List E) :
    Holds (run step s events) ↔ Holds s ∧ Along step P s events := by
  induction events generalizing s with
  | nil => exact ⟨fun h => ⟨h, trivial⟩, fun h => h.1⟩
  | cons e events ih => rw [run_cons, ih, hstep, Along, and_assoc]

/-- The same for a machine that keeps an invariant. -/
theorem run_iff_along_of_invariant {Inv : S → Prop} (Holds : S → Prop)
    (hkeep : ∀ s e, Inv s → Inv (step s e))
    (hstep : ∀ s e, Inv s → (Holds (step s e) ↔ Holds s ∧ P s e)) {s : S} (events : List E)
    (hinv : Inv s) : Holds (run step s events) ↔ Holds s ∧ Along step P s events := by
  induction events generalizing s with
  | nil => exact ⟨fun h => ⟨h, trivial⟩, fun h => h.1⟩
  | cons e events ih => rw [run_cons, ih (hkeep s e hinv), hstep s e hinv, Along, and_assoc]

/-- On a run whose times do not decrease, an invariant that speaks of the time of the clock holds
at every time at which the run is over. -/
theorem run_of_nondecreasing {T : Type} [Preorder T] {time : E → T} {Inv : T → S → Prop}
    (hadvance : ∀ clock later s, Inv clock s → clock ≤ later → Inv later s)
    (hstep : ∀ s e, Inv (time e) s → Inv (time e) (step s e)) {s : S}
    (hstart : ∀ clock, Inv clock s) {events : List E}
    (hsorted : events.Pairwise (fun e f => time e ≤ time f)) {later : T}
    (hlater : ∀ e ∈ events, time e ≤ later) : Inv later (run step s events) := by
  induction events using List.reverseRecOn generalizing later with
  | nil => exact hstart later
  | append_singleton events e ih =>
    obtain ⟨hbefore, -, hlast⟩ := List.pairwise_append.mp hsorted
    have hnow := ih hbefore (fun f hf => hlast f hf e List.mem_cons_self)
    rw [run_concat]
    exact hadvance _ _ _ (hstep _ e hnow)
      (hlater e (List.mem_append_right _ List.mem_cons_self))

/-- On a run whose times do not decrease, such an invariant holds at the time of each event. -/
theorem along_of_nondecreasing {T : Type} [Preorder T] {time : E → T} {Inv : T → S → Prop}
    (hadvance : ∀ clock later s, Inv clock s → clock ≤ later → Inv later s)
    (hstep : ∀ s e, Inv (time e) s → Inv (time e) (step s e)) {s : S} {events : List E}
    (hstart : ∀ e ∈ events, Inv (time e) s)
    (hsorted : events.Pairwise (fun e f => time e ≤ time f)) :
    Along step (fun s e => Inv (time e) s) s events := by
  induction events generalizing s with
  | nil => trivial
  | cons e events ih =>
    obtain ⟨hfirst, hrest⟩ := List.pairwise_cons.mp hsorted
    have hnow := hstart e List.mem_cons_self
    exact ⟨hnow, ih (fun f hf => hadvance _ _ _ (hstep s e hnow) (hfirst f hf)) hrest⟩

/-- When one thread moves, a sum over the threads changes by what that thread adds to it. -/
theorem sum_update_phase {ι Phase M : Type} [Fintype ι] [DecidableEq ι] [AddCommGroup M]
    (phases : ι → Phase) (i : ι) (next : Phase) (f : Phase → M) :
    ∑ j, f (Function.update phases i next j) = ∑ j, f (phases j) + (f next - f (phases i)) := by
  have hmem := Finset.mem_univ i
  have hmoved : f ∘ Function.update phases i next = Function.update (f ∘ phases) i (f next) :=
    Function.comp_update _ _ _ _
  calc ∑ j, f (Function.update phases i next j)
      = ∑ j, Function.update (f ∘ phases) i (f next) j := by rw [← hmoved]; rfl
    _ = f next + ∑ j ∈ Finset.univ \ {i}, f (phases j) := Finset.sum_update_of_mem hmem _ _
    _ = ∑ j, f (phases j) + (f next - f (phases i)) := by
        rw [Finset.sum_eq_add_sum_sdiff_singleton_of_mem hmem (fun j => f (phases j))]
        abel

section Phases

variable {Phase : Type} {threads : List Phase} {i : ℕ} {old : Phase}

/-- The other threads keep their phases. -/
theorem mem_set_phase (hold : threads[i]? = some old) {phase : Phase} (hmem : phase ∈ threads)
    (hne : phase ≠ old) (next : Phase) : phase ∈ threads.set i next := by
  obtain ⟨j, hj⟩ := List.mem_iff_getElem?.mp hmem
  have hij : i ≠ j := by
    rintro rfl
    rw [hold] at hj
    exact hne (Option.some.inj hj).symm
  rw [List.mem_iff_getElem?]
  exact ⟨j, by rw [List.getElem?_set_ne hij, hj]⟩

theorem mem_set_phase_self (hold : threads[i]? = some old) (next : Phase) :
    next ∈ threads.set i next := by
  obtain ⟨hi, -⟩ := List.getElem?_eq_some_iff.mp hold
  exact List.mem_set hi next

theorem countP_set_phase (hold : threads[i]? = some old) (next : Phase) (p : Phase → Bool) :
    (threads.set i next).countP p + (if p old then 1 else 0) =
      threads.countP p + (if p next then 1 else 0) := by
  obtain ⟨hi, hget⟩ := List.getElem?_eq_some_iff.mp hold
  have hle : (if p old then 1 else 0) ≤ threads.countP p := by
    split_ifs with hp
    · exact List.countP_pos_iff.mpr ⟨old, List.mem_of_getElem? hold, hp⟩
    · exact Nat.zero_le _
  rw [List.countP_set hi, hget]
  omega

end Phases

end Blackstone.Runs
