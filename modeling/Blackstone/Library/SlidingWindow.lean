import Mathlib.Order.Basic
import Mathlib.Tactic.Common

/-!
# Limits over a sliding window

A limiter grants a request when fewer than `max` of the earlier grants are near to it, where
`near now x` says that a grant at `x` still counts at `now`. A log lists the grants, the newest in
front. Any set of times whose members are near to each other has at most `max` grants of the log
(`Limited.countP_le`).

The limiter does not keep the log but a list from which it drops what no longer counts. That list
need only agree with the log on what still counts now or later (`Window.tracks`). So entries may
be dropped late (`Window.prune`), or together (`Window.discard`).
-/

namespace Blackstone.SlidingWindow

variable {T : Type} [Preorder T] {near : T → T → Bool} {max : ℕ}

/-- Each grant found fewer than `max` earlier ones near to it. -/
def Limited (near : T → T → Bool) (max : ℕ) : List T → Prop
  | [] => True
  | now :: log => log.countP (near now) < max ∧ Limited near max log

theorem Limited.countP_le {log : List T} (h : Limited near max log)
    (hsorted : log.Pairwise (fun now x => x ≤ now)) {among : T → Bool}
    (hamong : ∀ now x, x ≤ now → among now → among x → near now x) :
    log.countP among ≤ max := by
  induction log with
  | nil => exact Nat.zero_le _
  | cons now log ih =>
    obtain ⟨hpast, hrest⟩ := List.pairwise_cons.mp hsorted
    by_cases hnow : among now = true
    · have hle : log.countP among ≤ log.countP (near now) :=
        List.countP_mono_left fun x hx hin => hamong now x (hpast x hx) hnow hin
      rw [List.countP_cons_of_pos hnow]
      have := h.1
      omega
    · rw [List.countP_cons_of_neg hnow]
      exact ih h.2 hrest

/-- A limiter that keeps the list `kept`, with the log of its grants, when the clock has come to
`clock`. -/
structure Window (near : T → T → Bool) (max : ℕ) (clock : T) (kept log : List T) : Prop where
  sorted : log.Pairwise (fun now x => x ≤ now)
  past : ∀ x ∈ log, x ≤ clock
  limited : Limited near max log
  tracks : ∀ now, clock ≤ now → kept.filter (near now) = (log.filter (near now)).reverse

/-- What counts at some time counted at every time before. -/
def Fades (near : T → T → Bool) : Prop := ∀ x earlier later, earlier ≤ later → near later x →
  near earlier x

variable {clock now : T} {kept log : List T}

theorem Window.empty (near : T → T → Bool) (max : ℕ) (clock : T) : Window near max clock [] [] where
  sorted := List.Pairwise.nil
  past _ hx := absurd hx List.not_mem_nil
  limited := trivial
  tracks _ _ := rfl

theorem Window.advance (h : Window near max clock kept log) (hclock : clock ≤ now) :
    Window near max now kept log where
  sorted := h.sorted
  past x hx := (h.past x hx).trans hclock
  limited := h.limited
  tracks later hlater := h.tracks later (hclock.trans hlater)

/-- What counts in the list is what counts in the log. -/
theorem Window.length_filter (h : Window near max clock kept log) (hclock : clock ≤ now) :
    (kept.filter (near now)).length = log.countP (near now) := by
  rw [h.tracks now hclock, List.length_reverse, List.countP_eq_length_filter]

theorem filter_filter_near (hfades : Fades near) {later : T} (hlater : now ≤ later) (xs : List T) :
    (xs.filter (near now)).filter (near later) = xs.filter (near later) := by
  rw [List.filter_filter]
  apply List.filter_congr
  intro x _
  rw [Bool.and_eq_left_iff_imp]
  exact hfades x now later hlater

/-- What no longer counts is dropped. -/
theorem Window.prune (hfades : Fades near) (h : Window near max clock kept log)
    (hclock : clock ≤ now) : Window near max now (kept.filter (near now)) log where
  sorted := h.sorted
  past x hx := (h.past x hx).trans hclock
  limited := h.limited
  tracks later hlater := by
    rw [filter_filter_near hfades hlater, h.tracks later (hclock.trans hlater)]

/-- A request is granted. -/
theorem Window.grant (hfades : Fades near) (h : Window near max clock kept log)
    (hclock : clock ≤ now) (hfew : (kept.filter (near now)).length < max) :
    Window near max now (kept.filter (near now) ++ [now]) (now :: log) where
  sorted := List.pairwise_cons.mpr ⟨fun x hx => (h.past x hx).trans hclock, h.sorted⟩
  past x hx := by
    rcases List.mem_cons.mp hx with rfl | hx
    · exact le_refl _
    · exact (h.past x hx).trans hclock
  limited := by
    rw [h.length_filter hclock] at hfew
    exact ⟨hfew, h.limited⟩
  tracks later hlater := by
    rw [List.filter_append, filter_filter_near hfades hlater, h.tracks later (hclock.trans hlater)]
    by_cases hnear : near later now = true
    · rw [List.filter_cons_of_pos hnear, List.filter_cons_of_pos hnear, List.reverse_cons]
      rfl
    · rw [List.filter_cons_of_neg hnear, List.filter_cons_of_neg hnear, List.filter_nil,
        List.append_nil]

/-- A list of which nothing counts any more is dropped as a whole. -/
theorem Window.discard (h : Window near max clock kept log)
    (hnone : ∀ later, clock ≤ later → kept.filter (near later) = []) :
    Window near max clock [] log where
  sorted := h.sorted
  past := h.past
  limited := h.limited
  tracks later hlater := by
    rw [← h.tracks later hlater, hnone later hlater]
    rfl

/-- A request is refused only when `max` grants count. -/
theorem Window.of_refused (h : Window near max clock kept log) (hclock : clock ≤ now)
    (hmany : max ≤ (kept.filter (near now)).length) : max ≤ log.countP (near now) := by
  rwa [← h.length_filter hclock]

end Blackstone.SlidingWindow
